import WorkflowCompiler.Markup.Printer
import WorkflowCompiler.Proofs.Markup.Text

/-!
Printed trees. Trees whose names are simple print without fail, as `body` says: the
tag of an element holds its escaped text and then one line for each child
(`printElement_eq`, `serialize_eq`).
-/
namespace WorkflowCompiler.Markup
open Text

/-! ### Properties of whole trees -/

/-- A property of an element and of all elements below it. -/
inductive Element.Every (p : Element → Prop) : Element → Prop
  | intro {e : Element} (here : p e) (below : ∀ c ∈ e.children, Every p c) : Every p e

namespace Element.Every
variable {p q : Element → Prop} {e : Element}

theorem here (every : e.Every p) : p e := by
  cases every with
  | intro here _ => exact here

theorem inside (every : e.Every p) : ∀ c ∈ e.children, c.Every p := by
  cases every with
  | intro _ below => exact below

theorem imp (weaken : ∀ e, p e → q e) (every : e.Every p) : e.Every q := by
  induction every with
  | intro here _ ih => exact .intro (weaken _ here) ih

theorem and (first : e.Every p) (second : e.Every q) : e.Every fun e => p e ∧ q e := by
  induction first with
  | intro here _ ih => exact .intro ⟨here, second.here⟩ fun c member => ih c member (second.inside c member)

end Element.Every

mutual

/-- Decides a property of a whole tree. -/
def Element.decideEvery (p : Element → Prop) [DecidablePred p] : (e : Element) → Decidable (e.Every p)
  | ⟨name, attributes, text, children⟩ =>
    match (inferInstance : Decidable (p ⟨name, attributes, text, children⟩)), decideEach p children with
    | isTrue here, isTrue below => isTrue (.intro here below)
    | isFalse fails, _ => isFalse fun every => fails every.here
    | _, isFalse fails => isFalse fun every => fails every.inside

def Element.decideEach (p : Element → Prop) [DecidablePred p] : (es : List Element) → Decidable (∀ e ∈ es, e.Every p)
  | [] => isTrue (by simp)
  | e :: rest =>
    match decideEvery p e, decideEach p rest with
    | isTrue first, isTrue others => isTrue (List.forall_mem_cons.mpr ⟨first, others⟩)
    | isFalse fails, _ => isFalse fun all => fails (List.forall_mem_cons.mp all).1
    | _, isFalse fails => isFalse fun all => fails (List.forall_mem_cons.mp all).2

end

instance (p : Element → Prop) [DecidablePred p] (e : Element) : Decidable (e.Every p) := e.decideEvery p

/-! ### Simple names -/

def isSimpleStart (c : Char) : Bool := c.isAlpha || c == '_'

def isSimpleChar (c : Char) : Bool := c.isAlphanum || c == '_' || c == '.' || c == '-'

/-- Names of ASCII letters, digits, underscores, dots and hyphens that begin with a letter or an underscore,
    except for two names that no reader gives back. -/
def SimpleName (name : String) : Prop :=
  (∀ c ∈ name.toList, isSimpleChar c = true) ∧ name.toList.head?.any isSimpleStart = true ∧
    name ≠ "__proto__" ∧ name ≠ "hasOwnProperty"

instance (name : String) : Decidable (SimpleName name) :=
  decidable_of_iff (name.toList.all isSimpleChar = true ∧ name.toList.head?.any isSimpleStart = true ∧
      name ≠ "__proto__" ∧ name ≠ "hasOwnProperty")
    (and_congr_left' List.all_eq_true)

theorem SimpleName.cons {name : String} (simple : SimpleName name) :
    ∃ c rest, name.toList = c :: rest ∧ isSimpleStart c = true ∧ ∀ d ∈ rest, isSimpleChar d = true := by
  obtain ⟨all, first, _⟩ := simple
  cases shape : name.toList with
  | nil => simp [shape] at first
  | cons c rest =>
    rw [shape] at all first
    exact ⟨c, rest, rfl, by simpa using first, (List.forall_mem_cons.mp all).2⟩

theorem isSimpleChar_of_start {c : Char} (start : isSimpleStart c = true) : isSimpleChar c = true := by
  simp only [isSimpleStart, isSimpleChar, Char.isAlphanum, Bool.or_eq_true] at start ⊢
  tauto

/-- A property of the ASCII characters of simple names holds of all characters of simple names. -/
theorem isSimpleChar_all {p : Char → Bool} (checked : ∀ n < 128, isSimpleChar (Char.ofNat n) = true → p (Char.ofNat n) = true)
    {c : Char} (simple : isSimpleChar c = true) : p c = true := by
  have small : c.toNat < 128 := by
    have letters : c.isAlpha = (decide ('A'.val ≤ c.val ∧ c.val ≤ 'Z'.val) ||
        (decide ('a'.val ≤ c.val) && decide (c.val ≤ 'z'.val))) := rfl
    simp only [isSimpleChar, Char.isAlphanum, letters, Char.isDigit, Bool.or_eq_true, Bool.and_eq_true, decide_eq_true_eq,
      beq_iff_eq, UInt32.le_iff_toNat_le, ge_iff_le] at simple
    have upper : 'Z'.val.toNat = 90 := rfl
    have lower : 'z'.val.toNat = 122 := rfl
    have digit : '9'.val.toNat = 57 := rfl
    have same : c.toNat = c.val.toNat := rfl
    rcases simple with ((letter | rfl) | rfl) | rfl
    · omega
    all_goals decide
  rw [← Char.ofNat_toNat c] at simple ⊢
  exact checked _ small simple

theorem isBlank_simple {c : Char} (simple : isSimpleChar c = true) : isBlank c = false := by
  have := isSimpleChar_all (p := fun c => !isBlank c) (by decide +kernel) simple
  simpa using this

theorem isNameChar_simple {c : Char} (simple : isSimpleChar c = true) : isNameChar c = true :=
  isSimpleChar_all (by decide +kernel) simple

/-- Characters that have a meaning in or around tags. -/
def delimiters : List Char := ['<', '>', '/', '=', '"', '\'', '&', '!', '?', '#', ':', '\r', '\n', '\t', ' ']

theorem simple_not_delimiter {c : Char} (simple : isSimpleChar c = true) : c ∉ delimiters := by
  have := isSimpleChar_all (p := fun c => c ∉ delimiters) (by decide +kernel) simple
  simpa using this

theorem SimpleName.not_mem {name : String} (simple : SimpleName name) {d : Char} (special : d ∈ delimiters) : d ∉ name.toList :=
  fun member => simple_not_delimiter (simple.1 d member) special

theorem SimpleName.isBlank_eq_false {name : String} (simple : SimpleName name) : ∀ c ∈ name.toList, isBlank c = false :=
  fun c member => isBlank_simple (simple.1 c member)

theorem SimpleName.head?_ne {name : String} (simple : SimpleName name) {d : Char} (special : d ∈ delimiters) :
    name.toList.head? ≠ some d := by
  obtain ⟨c, rest, shape, start, _⟩ := simple.cons
  rw [shape, List.head?_cons]
  rintro ⟨⟩
  exact simple_not_delimiter (isSimpleChar_of_start start) special

theorem isName_of_simple {name : String} (simple : SimpleName name) : isName name.toList = true := by
  obtain ⟨c, rest, shape, start, others⟩ := simple.cons
  rw [shape, isName, Bool.and_eq_true, List.all_eq_true]
  refine ⟨?_, fun d member => isNameChar_simple (others d member)⟩
  have := isSimpleChar_all (p := fun c => !isSimpleStart c || isNameStart c) (by decide +kernel) (isSimpleChar_of_start start)
  simpa [start] using this

/-! ### Printed trees -/

/-- Elements that read back as they were written, but for blanks around texts. -/
structure Printable (e : Element) : Prop where
  name : SimpleName e.name
  keys : ∀ a ∈ e.attributes, SimpleName a.1
  kept : ∀ a ∈ e.attributes, a.1 ∉ reservedAttributes ∧ a.1 ∉ guardedAttributes
  distinct : (e.attributes.map Prod.fst).Nodup
  /-- A carriage return at the end of a text would merge with the end of its line. -/
  joined : e.children ≠ [] → '\r' ∉ e.text.toList

instance (e : Element) : Decidable (Printable e) :=
  decidable_of_iff (SimpleName e.name ∧ (∀ a ∈ e.attributes, SimpleName a.1) ∧
      (∀ a ∈ e.attributes, a.1 ∉ reservedAttributes ∧ a.1 ∉ guardedAttributes) ∧ (e.attributes.map Prod.fst).Nodup ∧
      (e.children.isEmpty = false → '\r' ∉ e.text.toList))
    ⟨fun ⟨name, keys, kept, distinct, joined⟩ => ⟨name, keys, kept, distinct, by simpa using joined⟩,
      fun printable => ⟨printable.name, printable.keys, printable.kept, printable.distinct, by simpa using printable.joined⟩⟩

def Element.isVoid (e : Element) : Bool := e.text == "" && e.children.isEmpty

def endTag (name : String) : List Char := "</".toList ++ name.toList ++ ['>']

mutual

/-- The tag of an element with its content, without the line it begins. -/
def body (lineStart : List Char) : Element → List Char
  | ⟨name, attributes, text, children⟩ =>
    '<' :: name.toList ++ printAttributes attributes ++
      if text = "" ∧ children.isEmpty then "/>".toList
      else
        '>' :: escape text.toList ++ bodies (lineStart ++ "  ".toList) children ++
          (if children.isEmpty then [] else lineStart) ++ endTag name

/-- The tags of elements, each on a line of its own. -/
def bodies (lineStart : List Char) : List Element → List Char
  | [] => []
  | e :: rest => lineStart ++ body lineStart e ++ bodies lineStart rest

end

/-- What begins a line: line ends and spaces only. -/
def Indent (lineStart : List Char) : Prop := ∀ c ∈ lineStart, c = '\n' ∨ c = ' '

theorem Indent.line : Indent ['\n'] := by
  intro c member
  exact .inl (List.mem_singleton.mp member)

theorem Indent.deeper {lineStart : List Char} (indent : Indent lineStart) : Indent (lineStart ++ "  ".toList) := by
  intro c member
  rcases List.mem_append.mp member with before | within
  · exact indent c before
  · exact .inr (by simpa using within)

theorem Indent.ifNonempty {lineStart : List Char} (indent : Indent lineStart) (es : List Element) :
    Indent (if es.isEmpty then [] else lineStart) := by
  split
  · exact List.forall_mem_nil _
  · exact indent

theorem body_cons (lineStart : List Char) {e : Element} (simple : SimpleName e.name) :
    ∃ c rest, body lineStart e = '<' :: c :: rest ∧ c ∉ delimiters := by
  obtain ⟨c, rest, shape, start, _⟩ := simple.cons
  obtain ⟨name, attributes, text, children⟩ := e
  rw [body, show name.toList = c :: rest from shape]
  exact ⟨c, _, rfl, simple_not_delimiter (isSimpleChar_of_start start)⟩

theorem getLast?_endTag (before : List Char) (name : String) : (before ++ endTag name).getLast? = some '>' := by
  rw [endTag, ← List.append_assoc, List.getLast?_concat]

theorem getLast?_body (lineStart : List Char) (e : Element) : (body lineStart e).getLast? = some '>' := by
  obtain ⟨name, attributes, text, children⟩ := e
  rw [body, List.getLast?_append]
  split
  · rfl
  · rw [getLast?_endTag, Option.some_or]

theorem getLast?_bodies (lineStart : List Char) {es : List Element} (filled : es ≠ []) :
    (bodies lineStart es).getLast? = some '>' := by
  induction es with
  | nil => exact absurd rfl filled
  | cons e rest ih =>
    rw [bodies, List.getLast?_append]
    cases rest with
    | nil => simp [bodies, getLast?_body]
    | cons d rest => rw [ih (List.cons_ne_nil _ _), Option.some_or]

theorem not_mem_escape {c : Char} (special : c ∈ specialChars) (other : c ≠ '&') (cs : List Char) : c ∉ escape cs := by
  intro member
  obtain ⟨d, _, within⟩ := List.mem_flatMap.mp member
  by_cases escaped : d ∈ specialChars
  · simp only [specialChars, List.mem_cons, List.not_mem_nil, or_false] at special escaped
    rcases escaped with rfl | rfl | rfl | rfl | rfl
    all_goals
      rcases special with rfl | rfl | rfl | rfl | rfl
      all_goals first | exact other rfl | exact absurd within (by decide)
  · rw [escapeChar_other escaped] at within
    exact escaped (List.mem_singleton.mp within ▸ special)

theorem holds_eq_false {mark : String} {cs : List Char} {c : Char} (marked : c ∈ mark.toList) (absent : c ∉ cs) :
    holds mark cs = false := by
  cases found : breakOn mark.toList cs with
  | none => rw [holds, found, Option.isSome_none]
  | some parts =>
    refine absurd ?_ absent
    rw [eq_append_of_breakOn found]
    simp [marked]

theorem printTag_nil (lineStart start : List Char) (name : String) : printTag lineStart start [] name = start ++ "/>".toList := rfl

theorem printTag_plain {lineStart start content : List Char} {name : String} (filled : content ≠ []) (noStart : '<' ∉ content)
    (noEnd : '>' ∉ content) : printTag lineStart start content name = start ++ '>' :: content ++ endTag name := by
  have notLast : content.getLast? ≠ some '>' := fun last => noEnd (List.mem_of_getLast? last)
  rw [printTag, if_neg (by simpa using filled), if_neg notLast, holds_eq_false (c := '>') (by decide) noEnd,
    holds_eq_false (c := '<') (by decide) noStart]
  rfl

theorem printTag_tagged {lineStart start content : List Char} {name : String} (tagged : content.getLast? = some '>') :
    printTag lineStart start content name = start ++ '>' :: content ++ lineStart ++ endTag name := by
  have filled : content ≠ [] := by
    rintro rfl
    cases tagged
  rw [printTag, if_neg (by simpa using filled), if_pos tagged]
  rfl

theorem escape_eq_nil {cs : List Char} : escape cs = [] ↔ cs = [] := by
  constructor
  · intro empty
    cases cs with
    | nil => rfl
    | cons c cs =>
      rw [escape_cons, List.append_eq_nil_iff] at empty
      unfold escapeChar at empty
      split at empty
      all_goals cases empty.1
  · rintro rfl
    rfl

theorem printTag_eq (lineStart : List Char) (e : Element) :
    printTag lineStart (lineStart ++ '<' :: e.name.toList ++ printAttributes e.attributes)
      (escape e.text.toList ++ bodies (lineStart ++ "  ".toList) e.children) e.name = lineStart ++ body lineStart e := by
  obtain ⟨name, attributes, text, children⟩ := e
  simp only [body]
  by_cases leaf : children = []
  · subst leaf
    by_cases empty : text = ""
    · subst empty
      simp [escape, bodies, printTag_nil]
    · have filled : escape text.toList ≠ [] := by simpa [escape_eq_nil] using empty
      rw [bodies, List.append_nil, printTag_plain filled (not_mem_escape (by decide) (by decide) _)
        (not_mem_escape (by decide) (by decide) _), if_neg (by simp [empty])]
      simp
  · have tagged : (escape text.toList ++ bodies (lineStart ++ "  ".toList) children).getLast? = some '>' := by
      rw [List.getLast?_append, getLast?_bodies _ leaf, Option.some_or]
    rw [printTag_tagged tagged, if_neg (by simp [leaf])]
    simp [leaf]

theorem printElements_eq {lineStart : List Char} {es : List Element}
    (each : ∀ e ∈ es, ∀ afterTag, printElement lineStart afterTag e = .ok (lineStart ++ body lineStart e, true)) (afterTag : Bool) :
    printElements lineStart afterTag es = .ok (bodies lineStart es) := by
  induction es generalizing afterTag with
  | nil => rfl
  | cons e rest ih =>
    obtain ⟨first, others⟩ := List.forall_mem_cons.mp each
    rw [printElements, first]
    simp only [ih others]
    rw [bodies]
    rfl

theorem printElement_eq {e : Element} (simple : e.Every fun e => SimpleName e.name) (lineStart : List Char) (afterTag : Bool) :
    printElement lineStart afterTag e = .ok (lineStart ++ body lineStart e, true) := by
  induction simple generalizing lineStart afterTag with
  | @intro e here _ ih =>
    rw [← printTag_eq]
    obtain ⟨name, attributes, text, children⟩ := e
    have notAttributes : name ≠ attributesName := by
      rintro rfl
      exact here.head?_ne (d := ':') (by decide) (by decide : attributesName.toList.head? = _)
    have notText : name ≠ textName := by
      rintro rfl
      exact here.head?_ne (d := '#') (by decide) (by decide : textName.toList.head? = _)
    have notInstruction : isInstruction name = false := by
      simpa [isInstruction] using here.head?_ne (d := '?') (by decide)
    rw [printElement, if_neg notAttributes, if_neg notText, notInstruction]
    simp only [Bool.false_eq_true, if_false, printElements_eq fun c member => ih c member _]
    rfl

theorem serialize_eq {e : Element} (simple : e.Every fun e => SimpleName e.name) :
    serialize e = .ok (String.ofList (body ['\n'] e)) := by
  have last : (body ['\n'] e).getLast? = some '>' := getLast?_body _ e
  have first : (body ['\n'] e).head? = some '<' := by
    obtain ⟨name, attributes, text, children⟩ := e
    rw [body]
    rfl
  have trimmed : Trimmed (body ['\n'] e) := by
    refine (trimmed_iff _).mpr ⟨?_, ?_⟩
    · rw [first]
      rintro _ ⟨⟩
      decide
    · rw [last]
      rintro _ ⟨⟩
      decide
  rw [serialize, printElement_eq simple]
  show Except.ok (String.ofList (trimChars (['\n'] ++ body ['\n'] e))) = _
  rw [trimChars_append_left (List.forall_mem_singleton.mpr (by decide)), trimmed]

end WorkflowCompiler.Markup
