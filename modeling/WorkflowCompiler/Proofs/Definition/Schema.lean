import WorkflowCompiler.Definition.Schema

/-!
What the schema asks for, as a property of elements. A definition is accepted
exactly if it conforms (`validateSchema_ok_iff`); the report plays no part in that.
-/
namespace WorkflowCompiler.Definition
open Markup (Element)

/-- An attribute that is there and not blank. -/
def HasAttribute (e : Element) (key : String) : Prop :=
  ∃ value, e.attribute? key = some value ∧ Text.isBlankText value = false

mutual

def Shape.Fits : Shape → Element → Prop
  | .any, _ => True
  | .element attributes rules oneType, e =>
    (∀ key ∈ attributes, HasAttribute e key) ∧ rules.Fits e ∧ (oneType = true → (actionTypes e).length = 1)

def Rules.Fits : Rules → Element → Prop
  | .nil, _ => True
  | .cons tag least most shape rest, e =>
    (∀ c ∈ e.childrenNamed tag, shape.Fits c) ∧ least ≤ (e.childrenNamed tag).length ∧
      (∀ n ∈ most, (e.childrenNamed tag).length ≤ n) ∧ rest.Fits e

end

/-- What the schema asks of a definition. -/
structure Conforms (root : Element) : Prop where
  tag : root.name = Tag.root
  named : HasAttribute root Key.name
  children : ∀ e ∈ root.children, ∃ shape, Shape.ofTag? e.name = some shape ∧ shape.Fits e
  oneStart : (root.childrenNamed Tag.start).length = 1

theorem attributeIssues_eq_nil_iff (e : Element) (path keys : List String) :
    attributeIssues e path keys = [] ↔ ∀ key ∈ keys, HasAttribute e key := by
  simp only [attributeIssues, List.filterMap_eq_nil_iff]
  refine forall₂_congr fun key _ => ?_
  cases found : e.attribute? key with
  | none =>
    have blank : Text.isBlankText "" = true := by decide
    simp [HasAttribute, found, blank]
  | some value => simp [HasAttribute, found]

theorem countIssues_eq_nil_iff (path : List String) (tag : String) (least : Nat) (most : Option Nat) (found : Nat) :
    countIssues path tag least most found = [] ↔ least ≤ found ∧ ∀ n ∈ most, found ≤ n := by
  cases most with
  | none => simp [countIssues]
  | some n => simp [countIssues]

mutual

theorem Shape.issues_eq_nil_iff : (shape : Shape) → (e : Element) → (path : List String) →
    (shape.issues e path = [] ↔ shape.Fits e)
  | .any, e, path => by simp [Shape.issues, Shape.Fits]
  | .element attributes rules oneType, e, path => by
    simp only [Shape.issues, Shape.Fits, List.append_eq_nil_iff, attributeIssues_eq_nil_iff,
      rules.issues_eq_nil_iff e path, and_assoc]
    cases oneType <;> simp [actionTypeIssues]

theorem Rules.issues_eq_nil_iff : (rules : Rules) → (e : Element) → (path : List String) →
    (rules.issues e path = [] ↔ rules.Fits e)
  | .nil, e, path => by simp [Rules.issues, Rules.Fits]
  | .cons tag least most shape rest, e, path => by
    simp only [Rules.issues, Rules.Fits, List.append_eq_nil_iff, List.flatMap_eq_nil_iff, countIssues_eq_nil_iff,
      rest.issues_eq_nil_iff e path, and_assoc]
    refine and_congr_left fun _ => forall₂_congr fun c _ => ?_
    exact shape.issues_eq_nil_iff c _

end

theorem topElementIssues_eq_nil_iff (e : Element) :
    topElementIssues e = [] ↔ ∃ shape, Shape.ofTag? e.name = some shape ∧ shape.Fits e := by
  unfold topElementIssues
  cases Shape.ofTag? e.name with
  | none => simp
  | some shape => simp [shape.issues_eq_nil_iff]

theorem schemaIssues_eq_nil_iff (root : Element) : schemaIssues root = [] ↔ Conforms root := by
  unfold schemaIssues startIssues
  by_cases tag : root.name = Tag.root
  · simp only [if_pos tag, List.append_eq_nil_iff, attributeIssues_eq_nil_iff, List.flatMap_eq_nil_iff,
      topElementIssues_eq_nil_iff]
    constructor
    · rintro ⟨⟨named, children⟩, one⟩
      exact ⟨tag, named _ (List.mem_singleton_self _), children, by simpa using one⟩
    · intro conforms
      exact ⟨⟨by simpa using conforms.named, conforms.children⟩, by simpa using conforms.oneStart⟩
  · simp only [if_neg tag]
    constructor
    · intro empty
      cases empty
    · intro conforms
      exact absurd conforms.tag tag

theorem validateSchema_ok_iff (definition : String) :
    validateSchema definition = .ok () ↔ ∃ root, Markup.parse definition = .ok root ∧ Conforms root := by
  unfold validateSchema checkSchema
  cases Markup.parse definition with
  | error cause => simp
  | ok root =>
    have agrees := schemaIssues_eq_nil_iff root
    cases issues : schemaIssues root with
    | nil => simpa [issues] using agrees
    | cons issue others => simpa [issues] using agrees

end WorkflowCompiler.Definition
