import WorkflowCompiler.Definition.Parameters
import WorkflowCompiler.Proofs.Dict

/-!
What the declarations of parameters do to a job configuration. Its entries stay where they are, and a new one has the
name of a declared parameter and the value of the first declaration of that name that has one (`Filled`), also when
a parameter is left without a value. When none is, all declared names are set in the end (`Declared`), and the same
declarations add nothing any more (`verifyParameters_again`).
-/
namespace WorkflowCompiler

namespace Dict
variable {α : Type}

/-- A key that was not there yet is written at the end. -/
theorem entries_put_fresh {d : Dict α} {key : String} (fresh : d.contains key = false) (value : α) :
    (d.put key value).entries = d.entries ++ [(key, value)] := by
  refine putEntry_fresh fun member => ?_
  rw [mem_keys_iff.mp member] at fresh
  cases fresh

/-- What stands in front is found as before. -/
theorem get?_of_prefix {d more : Dict α} (before : d.entries <+: more.entries) {key : String} {value : α}
    (present : d.get? key = some value) : more.get? key = some value := by
  obtain ⟨later, same⟩ := before
  rw [get?, ← same, List.lookup_append]
  rw [get?] at present
  rw [present]
  rfl

theorem keys_prefix {d more : Dict α} (before : d.entries <+: more.entries) : d.keys <+: more.keys :=
  before.map Prod.fst

theorem keys_put_prefix (d : Dict α) (key : String) (value : α) : d.keys <+: (d.put key value).keys := by
  rw [keys_put]
  split
  · exact List.prefix_refl _
  · exact List.prefix_append _ _

end Dict

namespace Definition
open Markup (Element)

/-- The declarations of parameters in a definition. -/
def declarations (root : Element) : List Element :=
  match root.child? Tag.parameters with
  | none => []
  | some parameters => parameters.childrenNamed Tag.property

/-- The name of a declared parameter, trimmed. -/
def parameterName? (p : Element) : Option String := (p.childText? Tag.propertyName).map Text.trim

/-- The value of the first declaration of a parameter that has one. -/
def defaultValue? (ps : List Element) (name : String) : Option String :=
  ps.findSome? fun p => if parameterName? p = some name then p.childText? Tag.propertyValue else none

/-- A job configuration with default values of declared parameters added. -/
structure Filled (ps : List Element) (conf after : Dict String) : Prop where
  kept : conf.entries <+: after.entries
  added : ∀ key value, after.get? key = some value → conf.get? key = none → defaultValue? ps key = some value

/-- All declared names are set. -/
def Declared (conf : Dict String) (ps : List Element) : Prop :=
  ∀ p ∈ ps, ∃ name, parameterName? p = some name ∧ name ≠ "" ∧ conf.contains name = true

variable {p root : Element} {ps : List Element} {conf mid after other : Dict String} {name value : String}

theorem Filled.refl (ps : List Element) (conf : Dict String) : Filled ps conf conf where
  kept := List.prefix_refl _
  added key value present absent := by
    rw [absent] at present
    cases present

theorem defaultValue?_cons (p : Element) (ps : List Element) (name : String) :
    defaultValue? (p :: ps) name = ((if parameterName? p = some name then p.childText? Tag.propertyValue else none)).or
      (defaultValue? ps name) := by
  rw [defaultValue?, List.findSome?_cons, defaultValue?]
  split
  · rename_i found
    rw [found]
    rfl
  · rename_i missing
    rw [missing]
    rfl

/-- A declaration that adds nothing itself lets the later ones add what they add. -/
theorem Filled.skip (filled : Filled ps conf after)
    (silent : ∀ name, parameterName? p = some name → conf.contains name = true ∨ p.childText? Tag.propertyValue = none) :
    Filled (p :: ps) conf after where
  kept := filled.kept
  added key value present absent := by
    rw [defaultValue?_cons, filled.added key value present absent]
    split
    · rename_i declared
      rcases silent key declared with set | none
      · rw [Dict.contains, absent] at set
        cases set
      · rw [none]
        rfl
    · rfl

/-- A declaration that has a value adds it, and then the later ones add what they add. -/
theorem Filled.put (filled : Filled ps (conf.put name value) after) (fresh : conf.contains name = false)
    (declared : parameterName? p = some name) (present : p.childText? Tag.propertyValue = some value) :
    Filled (p :: ps) conf after := by
  have entries := Dict.entries_put_fresh fresh value
  refine ⟨List.IsPrefix.trans (by rw [entries]; exact List.prefix_append _ _) filled.kept, fun key found isSet absent => ?_⟩
  rw [defaultValue?_cons, declared]
  by_cases same : key = name
  · subst same
    have written : after.get? key = some value := Dict.get?_of_prefix filled.kept (by rw [Dict.get?_put, if_pos rfl])
    rw [isSet] at written
    cases written
    rw [if_pos rfl, present]
    rfl
  · have later := filled.added key found isSet (by rw [Dict.get?_put, if_neg same, absent])
    rw [if_neg fun equal => same (Option.some.inj equal).symm, later]
    rfl

theorem fillParameters_cons (conf : Dict String) (missing : List String) (p : Element) (ps : List Element) :
    fillParameters conf missing (p :: ps) =
      match parameterName? p with
      | none => .fail conf .parameterWithoutName
      | some name =>
        if name = "" then .fail conf .parameterWithoutName
        else if conf.contains name then fillParameters conf missing ps
        else
          match p.childText? Tag.propertyValue with
          | some value => fillParameters (conf.put name value) missing ps
          | none => fillParameters conf (missing ++ [name]) ps := by
  conv => lhs; rw [fillParameters]
  unfold parameterName?
  cases (p.childText? Tag.propertyName).map Text.trim with
  | none => rfl
  | some name => cases p.childText? Tag.propertyValue <;> rfl

/-- Declarations only add default values, whatever comes of it. -/
theorem filled_of_fillParameters (conf : Dict String) (missing : List String) (ps : List Element) :
    Filled ps conf (fillParameters conf missing ps).state := by
  induction ps generalizing conf missing with
  | nil =>
    rw [fillParameters]
    split
    · exact .refl _ _
    · exact .refl _ _
  | cons p ps ih =>
    rw [fillParameters_cons]
    cases declared : parameterName? p with
    | none => exact .refl _ _
    | some name =>
      dsimp only
      split
      · exact .refl _ _
      · split
        · rename_i set
          refine (ih conf missing).skip fun other same => .inl ?_
          rw [declared] at same
          cases same
          exact set
        · rename_i unset
          split
          · rename_i value present
            exact (ih _ missing).put (by simpa using unset) declared present
          · rename_i none
            exact (ih conf _).skip fun _ _ => .inr none

/-- When the declarations pass, no name was missing and all names are set in the end. -/
theorem declared_of_fillParameters {missing : List String} (done : fillParameters conf missing ps = .succeed after ()) :
    missing = [] ∧ Declared after ps := by
  induction ps generalizing conf missing with
  | nil =>
    rw [fillParameters] at done
    split at done
    · rename_i none
      exact ⟨List.isEmpty_iff.mp none, List.forall_mem_nil _⟩
    · cases done
  | cons p ps ih =>
    have filled := fun conf missing => filled_of_fillParameters conf missing ps
    rw [fillParameters_cons] at done
    cases declared : parameterName? p with
    | none =>
      rw [declared] at done
      cases done
    | some name =>
      simp only [declared] at done
      split at done
      · cases done
      · rename_i named
        have here (before : Dict String) (set : before.contains name = true) (kept : before.entries <+: after.entries) :
            ∃ name, parameterName? p = some name ∧ name ≠ "" ∧ after.contains name = true := by
          obtain ⟨value, present⟩ := Option.isSome_iff_exists.mp set
          refine ⟨name, declared, named, ?_⟩
          rw [Dict.contains, Dict.get?_of_prefix kept present]
          rfl
        split at done
        · rename_i set
          obtain ⟨none, later⟩ := ih done
          have kept := (filled conf missing).kept
          rw [done] at kept
          exact ⟨none, List.forall_mem_cons.mpr ⟨here conf set kept, later⟩⟩
        · split at done
          · rename_i value _
            obtain ⟨none, later⟩ := ih done
            have kept := (filled (conf.put name value) missing).kept
            rw [done] at kept
            have set : (conf.put name value).contains name = true := by rw [Dict.contains, Dict.get?_put, if_pos rfl]; rfl
            exact ⟨none, List.forall_mem_cons.mpr ⟨here _ set kept, later⟩⟩
          · obtain ⟨none, _⟩ := ih done
            simp at none

/-- Where all declared names are set, nothing is added. -/
theorem fillParameters_of_declared (declared : Declared conf ps) : fillParameters conf [] ps = .succeed conf () := by
  induction ps with
  | nil => rfl
  | cons p ps ih =>
    obtain ⟨⟨name, here, named, set⟩, later⟩ := List.forall_mem_cons.mp declared
    rw [fillParameters_cons, here]
    dsimp only
    rw [if_neg named, if_pos set]
    exact ih later

/-! ### Definitions -/

theorem verifyParameters_eq (root : Element) (conf : Dict String) :
    verifyParameters root conf = fillParameters conf [] (declarations root) := by
  rw [verifyParameters, declarations]
  cases root.child? Tag.parameters with
  | none => rfl
  | some parameters => rfl

theorem filled_of_verifyParameters (root : Element) (conf : Dict String) :
    Filled (declarations root) conf (verifyParameters root conf).state := by
  rw [verifyParameters_eq]
  exact filled_of_fillParameters conf [] _

/-- Declarations that were filled in once add nothing to what has the same names or more. -/
theorem verifyParameters_again (done : verifyParameters root conf = .succeed mid ())
    (more : ∀ name, mid.contains name = true → other.contains name = true) : verifyParameters root other = .succeed other () := by
  rw [verifyParameters_eq] at done ⊢
  refine fillParameters_of_declared fun p member => ?_
  obtain ⟨name, declared, named, set⟩ := (declared_of_fillParameters done).2 p member
  exact ⟨name, declared, named, more name set⟩

end Definition
end WorkflowCompiler
