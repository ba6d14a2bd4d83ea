import WorkflowCompiler.Proofs.Definition.Parameters

/-!
Which parameters are reported as left without a value. Declarations are gone through one by one (`Fills`), and the report
lists a name for every declaration without a value that comes while the name is not set. It lists exactly the names that are
not set in the end, each once and in order (`ReportsExactly`), if and only if the first declaration has a value wherever a
parameter that the job configuration does not set is declared more than once (`reportsExactly_iff_firstSettles`): a value that
is declared later sets a name that is listed already, and a second declaration without a value lists a name twice.
-/
namespace WorkflowCompiler

namespace Dict
variable {α : Type} {d : Dict α} {key other : String}

theorem contains_put (d : Dict α) (key other : String) (value : α) :
    (d.put key value).contains other = (decide (other = key) || d.contains other) := by
  rw [contains, get?_put]
  by_cases same : other = key
  · simp [same]
  · simp [same, contains]

theorem contains_put_self (d : Dict α) (key : String) (value : α) : (d.put key value).contains key = true := by
  rw [contains_put, decide_eq_true rfl, Bool.true_or]

theorem contains_put_of_contains (set : d.contains other = true) (key : String) (value : α) :
    (d.put key value).contains other = true := by
  rw [contains_put, set, Bool.or_true]

end Dict

namespace Definition
open Markup (Element)

/-- The names of declared parameters, in order and as often as they are declared. -/
def declaredNames (ps : List Element) : List String := ps.filterMap parameterName?

/-- Every declaration has a name that is not blank. -/
def AllNamed (ps : List Element) : Prop := ∀ p ∈ ps, (parameterName? p).getD "" ≠ ""

instance (ps : List Element) : Decidable (AllNamed ps) := inferInstanceAs (Decidable (∀ p ∈ ps, _ ≠ _))

/-- A check of declared parameters that fails exactly if a declared name is not set when it ends, and that lists exactly
    these names, each once and in the order of their declarations. -/
structure ReportsExactly (ps : List Element) (checked : Attempt (Dict String) Unit) : Prop where
  refuses : (∃ fault, checked.result = .error fault ∧ fault.code? = some .parameterVerificationFailure) ↔
    ∃ name ∈ declaredNames ps, checked.state.contains name = false
  lists : ∀ fault, checked.result = .error fault → ∃ names, fault = .missingParameters names ∧ names.Nodup ∧
    names.Sublist (declaredNames ps) ∧ ∀ name, name ∈ names ↔ name ∈ declaredNames ps ∧ checked.state.contains name = false

/-- The value that the first declaration of a parameter has. -/
def firstValue? (ps : List Element) (name : String) : Option String :=
  (ps.find? fun p => parameterName? p = some name).bind fun p => p.childText? Tag.propertyValue

/-- Of several declarations of a parameter that the job configuration does not set, the first one has a value. -/
def FirstSettles (conf : Dict String) (ps : List Element) : Prop :=
  ∀ name ∈ declaredNames ps, conf.contains name = false → 1 < (declaredNames ps).count name → (firstValue? ps name).isSome = true

instance (conf : Dict String) (ps : List Element) : Decidable (FirstSettles conf ps) :=
  inferInstanceAs (Decidable (∀ name ∈ declaredNames ps, _ → _ → _))

/-- Going through declarations, with the names that are listed on the way. -/
inductive Fills : Dict String → List Element → Dict String → List String → Prop
  | done {conf : Dict String} : Fills conf [] conf []
  | passed {conf after : Dict String} {p : Element} {ps : List Element} {name : String} {listed : List String}
      (declared : parameterName? p = some name) (set : conf.contains name = true) (onward : Fills conf ps after listed) :
      Fills conf (p :: ps) after listed
  | filled {conf after : Dict String} {p : Element} {ps : List Element} {name value : String} {listed : List String}
      (declared : parameterName? p = some name) (fresh : conf.contains name = false)
      (present : p.childText? Tag.propertyValue = some value) (onward : Fills (conf.put name value) ps after listed) :
      Fills conf (p :: ps) after listed
  | missed {conf after : Dict String} {p : Element} {ps : List Element} {name : String} {listed : List String}
      (declared : parameterName? p = some name) (fresh : conf.contains name = false)
      (none : p.childText? Tag.propertyValue = none) (onward : Fills conf ps after listed) :
      Fills conf (p :: ps) after (name :: listed)

variable {p root : Element} {ps : List Element} {conf conf' after : Dict String} {name value other : String} {listed : List String}

theorem allNamed_cons_iff : AllNamed (p :: ps) ↔ (∃ name, parameterName? p = some name ∧ name ≠ "") ∧ AllNamed ps := by
  rw [AllNamed, List.forall_mem_cons]
  refine and_congr_left fun _ => ?_
  cases parameterName? p <;> simp

theorem declaredNames_cons (declared : parameterName? p = some name) : declaredNames (p :: ps) = name :: declaredNames ps :=
  List.filterMap_cons_some declared

theorem firstValue?_cons (declared : parameterName? p = some name) :
    firstValue? (p :: ps) other = if other = name then p.childText? Tag.propertyValue else firstValue? ps other := by
  rw [firstValue?, List.find?_cons, declared]
  by_cases same : other = name
  · simp [same]
  · have different : ¬ name = other := fun equal => same equal.symm
    simp [same, different, firstValue?]

/-- The check goes through the declarations, and fails if it has listed a name. -/
theorem fills_of_fillParameters (conf : Dict String) (missing : List String) (named : AllNamed ps) :
    ∃ listed, Fills conf ps (fillParameters conf missing ps).state listed ∧ (fillParameters conf missing ps).result =
      if missing ++ listed = [] then .ok () else .error (.missingParameters (missing ++ listed)) := by
  induction ps generalizing conf missing with
  | nil =>
    refine ⟨[], ?_⟩
    rw [fillParameters, List.append_nil]
    cases missing with
    | nil => exact ⟨.done, rfl⟩
    | cons name missing => exact ⟨.done, rfl⟩
  | cons p ps ih =>
    obtain ⟨⟨name, declared, visible⟩, others⟩ := allNamed_cons_iff.mp named
    simp only [fillParameters_cons, declared, if_neg visible]
    by_cases set : conf.contains name = true
    · obtain ⟨listed, fills, result⟩ := ih conf missing others
      simp only [if_pos set]
      exact ⟨listed, .passed declared set fills, result⟩
    · simp only [if_neg set]
      have fresh : conf.contains name = false := by simpa using set
      cases present : p.childText? Tag.propertyValue with
      | some value =>
        obtain ⟨listed, fills, result⟩ := ih (conf.put name value) missing others
        exact ⟨listed, .filled declared fresh present fills, result⟩
      | none =>
        obtain ⟨listed, fills, result⟩ := ih conf (missing ++ [name]) others
        rw [List.append_assoc] at result
        exact ⟨name :: listed, .missed declared fresh present fills, result⟩

namespace Fills

theorem contains_of_contains (fills : Fills conf ps after listed) (set : conf.contains other = true) : after.contains other = true := by
  induction fills with
  | done => exact set
  | passed _ _ _ ih => exact ih set
  | filled _ _ _ _ ih => exact ih (Dict.contains_put_of_contains set _ _)
  | missed _ _ _ _ ih => exact ih set

theorem ne_of_contains (fills : Fills conf ps after listed) (set : conf.contains name = true)
    (unset : after.contains other = false) : name ≠ other := by
  rintro rfl
  rw [fills.contains_of_contains set] at unset
  cases unset

/-- Only what is declared is added. -/
theorem contains_iff_of_not_mem (fills : Fills conf ps after listed) (undeclared : other ∉ declaredNames ps) :
    after.contains other = conf.contains other := by
  induction fills with
  | done => rfl
  | passed declared _ _ ih =>
    rw [declaredNames_cons declared, List.mem_cons, not_or] at undeclared
    exact ih undeclared.2
  | filled declared _ _ _ ih =>
    rw [declaredNames_cons declared, List.mem_cons, not_or] at undeclared
    rw [ih undeclared.2, Dict.contains_put, decide_eq_false undeclared.1, Bool.false_or]
  | missed declared _ _ _ ih =>
    rw [declaredNames_cons declared, List.mem_cons, not_or] at undeclared
    exact ih undeclared.2

/-- Names are listed in the order of their declarations. -/
theorem sublist (fills : Fills conf ps after listed) : listed.Sublist (declaredNames ps) := by
  induction fills with
  | done => exact List.Sublist.slnil
  | passed declared _ _ ih =>
    rw [declaredNames_cons declared]
    exact ih.cons _
  | filled declared _ _ _ ih =>
    rw [declaredNames_cons declared]
    exact ih.cons _
  | missed declared _ _ _ ih =>
    rw [declaredNames_cons declared]
    exact ih.cons_cons _

/-- A name that is not set in the end is listed as often as it is declared. -/
theorem count_eq (fills : Fills conf ps after listed) (unset : after.contains other = false) :
    listed.count other = (declaredNames ps).count other := by
  induction fills with
  | done => rfl
  | passed declared set onward ih =>
    rw [declaredNames_cons declared, List.count_cons_of_ne (onward.ne_of_contains set unset), ih unset]
  | filled declared _ _ onward ih =>
    rw [declaredNames_cons declared, List.count_cons_of_ne (onward.ne_of_contains (Dict.contains_put_self _ _ _) unset), ih unset]
  | missed declared _ _ _ ih => rw [declaredNames_cons declared, List.count_cons, List.count_cons, ih unset]

/-- A name is listed if its first declaration has no value, even when a later one sets it. -/
theorem mem_of_firstValue? (fills : Fills conf ps after listed) (declares : other ∈ declaredNames ps)
    (unset : conf.contains other = false) (none : firstValue? ps other = none) : other ∈ listed := by
  induction fills with
  | done => exact absurd declares List.not_mem_nil
  | passed declared set _ ih =>
    have differs : other ≠ _ := fun same => by rw [same, set] at unset; cases unset
    rw [declaredNames_cons declared, List.mem_cons] at declares
    rw [firstValue?_cons declared, if_neg differs] at none
    exact ih (declares.resolve_left differs) unset none
  | filled declared _ present _ ih =>
    rw [firstValue?_cons declared] at none
    have differs : other ≠ _ := fun same => by rw [if_pos same, present] at none; cases none
    rw [declaredNames_cons declared, List.mem_cons] at declares
    rw [if_neg differs] at none
    exact ih (declares.resolve_left differs) (by rw [Dict.contains_put, decide_eq_false differs, unset, Bool.or_false]) none
  | missed declared _ _ _ ih =>
    rw [declaredNames_cons declared, List.mem_cons] at declares
    rw [firstValue?_cons declared] at none
    rcases Classical.em (other = _) with same | differs
    · exact List.mem_cons.mpr (.inl same)
    · rw [if_neg differs] at none
      exact List.mem_cons_of_mem _ (ih (declares.resolve_left differs) unset none)

end Fills

/-- After a declaration whose name is set or not declared again, it still holds of the later ones. -/
theorem FirstSettles.tail (settles : FirstSettles conf (p :: ps)) (declared : parameterName? p = some name)
    (grows : ∀ other, conf.contains other = true → conf'.contains other = true)
    (past : conf'.contains name = true ∨ name ∉ declaredNames ps) : FirstSettles conf' ps := by
  intro other declares unset repeated
  have differs : other ≠ name := by
    rintro rfl
    rcases past with set | last
    · rw [set] at unset
      cases unset
    · exact last declares
  have before : conf.contains other = false := by
    cases set : conf.contains other with
    | false => rfl
    | true =>
      rw [grows other set] at unset
      cases unset
  have first := settles other
  rw [declaredNames_cons declared, firstValue?_cons declared, if_neg differs, List.count_cons_of_ne (Ne.symm differs)] at first
  exact first (List.mem_cons_of_mem _ declares) before repeated

/-- Where the first declarations have values, no name is listed twice, and none that is set later. -/
theorem Fills.settled (fills : Fills conf ps after listed) (settles : FirstSettles conf ps) :
    listed.Nodup ∧ ∀ name ∈ listed, after.contains name = false := by
  induction fills with
  | done => exact ⟨List.nodup_nil, List.forall_mem_nil _⟩
  | passed declared set _ ih => exact ih (settles.tail declared (fun _ => id) (.inl set))
  | filled declared _ _ _ ih =>
    exact ih (settles.tail declared (fun _ set => Dict.contains_put_of_contains set _ _) (.inl (Dict.contains_put_self _ _ _)))
  | missed declared fresh none onward ih =>
    have last : _ ∉ declaredNames _ := fun again => by
      have first := settles _ (declaredNames_cons declared ▸ List.mem_cons_self) fresh (by
        rw [declaredNames_cons declared, List.count_cons_self]
        exact Nat.succ_lt_succ (List.count_pos_iff.mpr again))
      rw [firstValue?_cons declared, if_pos rfl, none] at first
      cases first
    obtain ⟨distinct, unset⟩ := ih (settles.tail declared (fun _ => id) (.inr last))
    refine ⟨List.nodup_cons.mpr ⟨fun again => last (onward.sublist.subset again), distinct⟩, List.forall_mem_cons.mpr ⟨?_, unset⟩⟩
    rw [onward.contains_iff_of_not_mem last, fresh]

/-- Where no name is listed twice, and none that is set later, the first declarations have values. -/
theorem Fills.firstSettles (fills : Fills conf ps after listed) (distinct : listed.Nodup)
    (unset : ∀ name ∈ listed, after.contains name = false) : FirstSettles conf ps := by
  intro name declares fresh repeated
  cases none : firstValue? ps name with
  | some value => rfl
  | none =>
    have count := fills.count_eq (unset name (fills.mem_of_firstValue? declares fresh none))
    have once := List.nodup_iff_count_le_one.mp distinct name
    omega

/-- The report is exact if and only if no name is listed twice and none that is set later: it always lists every name that
    is not set in the end. -/
theorem Fills.reportsExactly_iff (fills : Fills conf ps after listed) {result : Except Fault Unit}
    (report : result = if listed = [] then .ok () else .error (.missingParameters listed)) :
    ReportsExactly ps ⟨after, result⟩ ↔ listed.Nodup ∧ ∀ name ∈ listed, after.contains name = false := by
  have complete (name : String) (declares : name ∈ declaredNames ps) (unset : after.contains name = false) : name ∈ listed := by
    rw [← List.count_pos_iff] at declares ⊢
    rwa [fills.count_eq unset]
  subst report
  by_cases none : listed = []
  · subst none
    refine iff_of_true ⟨⟨?_, ?_⟩, ?_⟩ ⟨List.nodup_nil, List.forall_mem_nil _⟩
    · rintro ⟨fault, ⟨⟩, _⟩
    · rintro ⟨name, declares, unset⟩
      exact absurd (complete name declares unset) List.not_mem_nil
    · rintro fault ⟨⟩
  · rw [if_neg none]
    constructor
    · rintro ⟨_, lists⟩
      obtain ⟨names, ⟨⟩, distinct, _, exactly⟩ := lists _ rfl
      exact ⟨distinct, fun name member => ((exactly name).mp member).2⟩
    · rintro ⟨distinct, unset⟩
      obtain ⟨name, member⟩ := List.exists_mem_of_ne_nil listed none
      refine ⟨iff_of_true ⟨_, rfl, rfl⟩ ⟨name, fills.sublist.subset member, unset name member⟩, ?_⟩
      rintro fault ⟨⟩
      exact ⟨listed, rfl, distinct, fills.sublist, fun name =>
        ⟨fun member => ⟨fills.sublist.subset member, unset name member⟩, fun ⟨declares, unset⟩ => complete name declares unset⟩⟩

/-- The report of a check names exactly the declared names that are not set when it ends, if and only if of several
    declarations of a parameter that the job configuration does not set the first one has a value. -/
theorem reportsExactly_iff_firstSettles {root : Element} (conf : Dict String) (named : AllNamed (declarations root)) :
    ReportsExactly (declarations root) (verifyParameters root conf) ↔ FirstSettles conf (declarations root) := by
  obtain ⟨listed, fills, result⟩ := fills_of_fillParameters conf [] named
  rw [List.nil_append] at result
  rw [verifyParameters_eq]
  refine (fills.reportsExactly_iff result).trans ⟨fun ⟨distinct, unset⟩ => fills.firstSettles distinct unset, fills.settled⟩

/-! ### Repeated declarations -/

/-- The declaration of a parameter, with a default value if there is one. -/
def parameter (name : String) (value : Option String) : Element where
  name := Tag.property
  children := .ofText Tag.propertyName name :: (value.map (Element.ofText Tag.propertyValue)).toList

/-- A definition with parameters only. -/
def declaring (ps : List Element) : Element where
  name := Tag.root
  children := [{ name := Tag.parameters, children := ps }]

/-- A default value and then a declaration without one, a parameter that the job configuration sets, and one that nothing sets. -/
def repeatedQueue : Element :=
  declaring [parameter "queue" (some "default"), parameter "user" none, parameter "queue" none, parameter "user" none,
    parameter "date" none]

theorem reportsExactly_repeatedQueue : AllNamed (declarations repeatedQueue) ∧
    FirstSettles (.ofList [("user", "me")]) (declarations repeatedQueue) ∧
    ReportsExactly (declarations repeatedQueue) (verifyParameters repeatedQueue (.ofList [("user", "me")])) := by
  have named : AllNamed (declarations repeatedQueue) := by decide
  have settles : FirstSettles (.ofList [("user", "me")]) (declarations repeatedQueue) := by decide
  exact ⟨named, settles, (reportsExactly_iff_firstSettles _ named).mpr settles⟩

/-- A declaration without a value, and then one of the same name with a default value. -/
def lateDefault : Element := declaring [parameter "date" none, parameter "date" (some "today")]

/-- The name is listed, although it is set when the check ends. -/
theorem lateDefault_listed : AllNamed (declarations lateDefault) ∧
    verifyParameters lateDefault .empty = ⟨.ofList [("date", "today")], .error (.missingParameters ["date"])⟩ ∧
    ¬ ReportsExactly (declarations lateDefault) (verifyParameters lateDefault .empty) := by
  have checked : verifyParameters lateDefault .empty = ⟨.ofList [("date", "today")], .error (.missingParameters ["date"])⟩ := by rfl
  refine ⟨by decide, checked, fun report => ?_⟩
  rw [checked] at report
  obtain ⟨names, ⟨⟩, _, _, exactly⟩ := report.lists _ rfl
  exact absurd ((exactly "date").mp (List.mem_singleton_self _)).2 (by decide)

/-- Two declarations of one name without a value. -/
def twiceMissing : Element := declaring [parameter "date" none, parameter "date" none]

/-- The name is listed twice. -/
theorem twiceMissing_listed : AllNamed (declarations twiceMissing) ∧
    verifyParameters twiceMissing .empty = ⟨.empty, .error (.missingParameters ["date", "date"])⟩ ∧
    ¬ ReportsExactly (declarations twiceMissing) (verifyParameters twiceMissing .empty) := by
  have checked : verifyParameters twiceMissing .empty = ⟨.empty, .error (.missingParameters ["date", "date"])⟩ := by rfl
  refine ⟨by decide, checked, fun report => ?_⟩
  rw [checked] at report
  obtain ⟨names, ⟨⟩, distinct, _⟩ := report.lists _ rfl
  exact absurd distinct (by decide)

end Definition
end WorkflowCompiler
