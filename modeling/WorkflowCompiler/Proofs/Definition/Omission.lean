import WorkflowCompiler.Markup.Printer
import WorkflowCompiler.Proofs.Definition.Inheritance

/-!
Leaving out the children of a name. What an element inherits depends on the children with the names of what is
inherited, so leaving out others before or after makes no difference (`inherit_without`), and an element that
can be written can be written without them (`serialize_without`).
-/
namespace WorkflowCompiler
open Markup (Element WriteFault)

namespace Markup

/-- An element without its children of a name. -/
def Element.without (e : Element) (name : String) : Element := { e with children := e.children.filter fun c => c.name != name }

namespace Element
variable {e c : Element} {name field : String}

theorem child?_without (kept : field ≠ name) : (e.without name).child? field = e.child? field := by
  rw [child?, without, List.find?_filter, child?]
  congr 1
  funext c
  by_cases same : c.name = field
  · simp [same, kept]
  · simp [same]

theorem childrenNamed_without (kept : field ≠ name) : (e.without name).childrenNamed field = e.childrenNamed field := by
  rw [childrenNamed, without, List.filter_filter, childrenNamed]
  congr 1
  funext c
  by_cases same : c.name = field
  · simp [same, kept]
  · simp [same]

theorem append_without (kept : c.name ≠ name) : (e.append c).without name = (e.without name).append c := by
  simp [append, without, kept]

end Element

/-! ### Writing -/

/-- An element that can be written, wherever it stands. -/
def Writable (e : Element) : Prop := ∀ lineStart afterTag, ∃ written, printElement lineStart afterTag e = .ok written

theorem printElements_of_writable {elements : List Element} (each : ∀ e ∈ elements, Writable e) (lineStart : List Char)
    (afterTag : Bool) : ∃ written, printElements lineStart afterTag elements = .ok written := by
  induction elements generalizing afterTag with
  | nil => exact ⟨[], by rw [printElements]⟩
  | cons e rest ih =>
    obtain ⟨first, others⟩ := List.forall_mem_cons.mp each
    obtain ⟨⟨written, tagged⟩, printed⟩ := first lineStart afterTag
    obtain ⟨more, later⟩ := ih others tagged
    exact ⟨written ++ more, by simp [printElements, printed, later, Except.map]⟩

mutual

theorem writable_of_printElement {lineStart : List Char} {afterTag : Bool} {written : List Char × Bool} :
    ∀ e : Element, printElement lineStart afterTag e = .ok written → Writable e
  | ⟨name, attributes, text, children⟩, printed => by
    intro other before
    rw [printElement] at printed ⊢
    split
    · exact ⟨_, rfl⟩
    rename_i notAttributes
    rw [if_neg notAttributes] at printed
    split
    · rename_i isText
      rw [if_pos isText] at printed
      split
      · exact ⟨_, rfl⟩
      · rename_i filled
        rw [if_neg filled] at printed
        cases printed
    rename_i notText
    rw [if_neg notText] at printed
    dsimp only at printed ⊢
    split
    · rename_i instruction
      rw [if_pos instruction] at printed
      cases inside : instructionText text children with
      | error fault => rw [inside] at printed; cases printed
      | ok text => exact ⟨_, rfl⟩
    · rename_i tag
      rw [if_neg tag] at printed
      cases nested : printElements (lineStart ++ "  ".toList) false children with
      | error fault => rw [nested] at printed; cases printed
      | ok inside =>
        obtain ⟨inside, again⟩ := printElements_of_writable (writable_of_printElements children nested) (other ++ "  ".toList) false
        rw [again]
        exact ⟨_, rfl⟩

theorem writable_of_printElements {lineStart : List Char} {afterTag : Bool} {written : List Char} :
    ∀ elements : List Element, printElements lineStart afterTag elements = .ok written → ∀ e ∈ elements, Writable e
  | [], _ => List.forall_mem_nil _
  | e :: rest, printed => by
    rw [printElements] at printed
    split at printed
    · cases printed
    · rename_i first tagged here
      cases later : printElements lineStart tagged rest with
      | error fault => rw [later] at printed; cases printed
      | ok more => exact List.forall_mem_cons.mpr ⟨writable_of_printElement e here, writable_of_printElements rest later⟩

end

theorem writable_of_serialize {e : Element} {text : String} (written : serialize e = .ok text) : Writable e := by
  rw [serialize] at written
  cases printed : printElement ['\n'] false e with
  | error fault => rw [printed] at written; cases written
  | ok written => exact writable_of_printElement e printed

/-- An element whose name is written as it is can be written if its children can be. -/
theorem writable_iff {e : Element} (notAttributes : e.name ≠ attributesName) (notText : e.name ≠ textName)
    (tag : isInstruction e.name = false) : Writable e ↔ ∀ c ∈ e.children, Writable c := by
  obtain ⟨name, attributes, text, children⟩ := e
  have printed (lineStart : List Char) (afterTag : Bool) : printElement lineStart afterTag ⟨name, attributes, text, children⟩ =
      (printElements (lineStart ++ "  ".toList) false children).map fun nested =>
        (printTag lineStart (lineStart ++ '<' :: name.toList ++ printAttributes attributes) (escape text.toList ++ nested) name, true) := by
    rw [printElement, if_neg notAttributes, if_neg notText]
    dsimp only
    rw [if_neg (Bool.eq_false_iff.mp tag)]
  constructor
  · intro writable
    obtain ⟨written, here⟩ := writable ['\n'] false
    rw [printed] at here
    cases nested : printElements (['\n'] ++ "  ".toList) false children with
    | error fault => rw [nested] at here; cases here
    | ok inside => exact writable_of_printElements children nested
  · intro each lineStart afterTag
    obtain ⟨nested, inside⟩ := printElements_of_writable each (lineStart ++ "  ".toList) false
    rw [printed, inside]
    exact ⟨_, rfl⟩

theorem serialize_without {e : Element} {text : String} (written : serialize e = .ok text) (notAttributes : e.name ≠ attributesName)
    (notText : e.name ≠ textName) (tag : isInstruction e.name = false) (name : String) :
    ∃ text, serialize (e.without name) = .ok text := by
  have each := (writable_iff notAttributes notText tag).mp (writable_of_serialize written)
  have writable : Writable (e.without name) := by
    have fewer : ∀ c ∈ (e.without name).children, Writable c := fun c member => each c (List.mem_of_mem_filter member)
    exact (writable_iff (e := e.without name) notAttributes notText tag).mpr fewer
  obtain ⟨_, printed⟩ := writable ['\n'] false
  exact ⟨_, by rw [serialize, printed]; rfl⟩

end Markup

namespace Definition

/-! ### Inheriting -/

variable {e filled : Element} {globals : Option GlobalDefaults} {layer : Option (Dict String)} {node : Option String} {name : String}

theorem fillEndpoint_without {field : String} {inherited siteDefault : Option String} {exempt : Bool} (kept : field ≠ name)
    (done : fillEndpoint e field inherited siteDefault exempt node = .ok filled) :
    fillEndpoint (e.without name) field inherited siteDefault exempt node = .ok (filled.without name) := by
  unfold fillEndpoint at done ⊢
  rw [Element.child?_without kept]
  split at done
  · cases done
    rfl
  · split at done
    · rename_i value _
      cases done
      have own : (Element.ofText field value).name ≠ name := kept
      rw [Element.append_without own]
    · split at done
      · rename_i exempt
        cases done
        rw [if_pos exempt]
      · cases done

theorem appendJobXmls_without (kept : Tag.jobXml ≠ name) (e : Element) (files : List String) :
    appendJobXmls (e.without name) files = (appendJobXmls e files).without name := by
  induction files generalizing e with
  | nil => rfl
  | cons file rest ih =>
    have own : (Element.ofText Tag.jobXml file).name ≠ name := kept
    rw [appendJobXmls, appendJobXmls, Element.childrenNamed_without kept]
    split
    · exact ih e
    · rw [← Element.append_without own, ih]

theorem replaceFirst_filter {old : String} {new : Element} (kept : old ≠ name) (named : new.name = old) (children : List Element) :
    replaceFirst old new (children.filter fun c => c.name != name) = (replaceFirst old new children).filter fun c => c.name != name := by
  induction children with
  | nil => rfl
  | cons c rest ih =>
    by_cases left : c.name = name
    · have other : ¬ c.name = old := fun same => kept (same.symm.trans left)
      rw [List.filter_cons_of_neg (by simpa using left), replaceFirst, if_neg other, List.filter_cons_of_neg (by simpa using left), ih]
    · rw [List.filter_cons_of_pos (by simpa using left), replaceFirst, replaceFirst]
      split
      · rw [List.filter_cons_of_pos (by simpa [named] using kept)]
      · rw [List.filter_cons_of_pos (by simpa using left), ih]

theorem withConfiguration_without {new : Element} (named : new.name = Tag.configuration) (kept : Tag.configuration ≠ name) :
    withConfiguration (e.without name) new = (withConfiguration e new).without name := by
  unfold withConfiguration
  rw [Element.child?_without kept]
  split
  · exact (Element.append_without (named ▸ kept)).symm
  · exact congrArg (fun children => { e with children := children }) (replaceFirst_filter kept named e.children)

theorem mergeConfiguration_without (kept : Tag.configuration ≠ name) (done : mergeConfiguration e globals layer = .ok filled) :
    mergeConfiguration (e.without name) globals layer = .ok (filled.without name) := by
  obtain ⟨own, read, rfl⟩ := mergeConfiguration_eq_ok_iff.mp done
  rw [ownConfiguration, ← Element.child?_without kept] at read
  exact mergeConfiguration_eq_ok_iff.mpr ⟨own, read, (withConfiguration_without rfl kept).symm⟩

theorem resolveEndpoints_without {i : Inheritance} (nameNode : Tag.nameNode ≠ name) (jobTracker : Tag.jobTracker ≠ name)
    (done : resolveEndpoints i e globals node = .succeed filled ()) :
    resolveEndpoints i (e.without name) globals node = .succeed (filled.without name) () := by
  obtain ⟨mid, first, second⟩ := resolveEndpoints_eq_succeed_iff.mp done
  have type : (e.without name).name = e.name := rfl
  refine resolveEndpoints_eq_succeed_iff.mpr ⟨mid.without name, fillEndpoint_without nameNode first, ?_⟩
  rw [type]
  split at second
  · rename_i onFiles
    rw [if_pos onFiles, second]
  · rename_i other
    rw [if_neg other]
    exact fillEndpoint_without jobTracker second

/-- Children that nothing is inherited by can be left out before or after. -/
theorem inherit_without {i : Inheritance} (fields : name ∉ inheritedFields) (configuration : Tag.configuration ≠ name)
    (done : inherit i e globals layer node = .succeed filled ()) :
    inherit i (e.without name) globals layer node = .succeed (filled.without name) () := by
  simp only [inheritedFields, List.mem_cons, List.not_mem_nil, or_false, not_or] at fields
  obtain ⟨nameNode, jobTracker, jobXml⟩ := fields
  have type : (e.without name).name = e.name := rfl
  obtain ⟨supported, mid, endpoints, rest⟩ := inherit_eq_succeed_iff.mp done
  refine inherit_eq_succeed_iff.mpr ⟨supported, mid.without name, ?_, ?_⟩
  · rw [type]
    split at endpoints
    · rename_i takes
      rw [if_pos takes]
      exact resolveEndpoints_without (Ne.symm nameNode) (Ne.symm jobTracker) endpoints
    · rename_i none
      rw [if_neg none, endpoints]
  · rw [type]
    split at rest
    · rename_i takes
      rw [if_pos takes, appendJobXmls_without (Ne.symm jobXml)]
      exact mergeConfiguration_without configuration rest
    · rename_i none
      rw [if_neg none, rest]

end Definition
end WorkflowCompiler
