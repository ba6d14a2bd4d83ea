import WorkflowCompiler.Decimal.Binary64
import WorkflowCompiler.Dict

/-!
# Untyped values

What a configuration file or an encoded payload holds before it is checked:
scalars, lists and mappings. A mapping lists the keys that are array indices
first, in ascending order, and the other keys in order of insertion. A mapping
can be derived from another value: fields that it does not have are looked up
there, but are not its own.
-/
namespace WorkflowCompiler
universe u

/-- A value that has not been checked yet. `absent` stands for no value at all. -/
inductive Value
  | absent
  | null
  | bool (b : Bool)
  | number (n : Decimal.Binary64)
  | text (s : String)
  | list (items : List Value)
  | mapping (fields : List (String × Value))
  | derived (fields : List (String × Value)) (base : Value)
deriving Repr, Inhabited, BEq

/-- The index that a key spells: a number below `2 ^ 32 - 1` in decimal, without leading zeros. -/
def arrayIndex? (key : String) : Option Nat :=
  match key.toList with
  | [] => none
  | ['0'] => some 0
  | c :: rest =>
    if c ≠ '0' ∧ (c :: rest).all Char.isDigit ∧ rest.length < 10 then
      let n := (c :: rest).foldl (fun n d => 10 * n + (d.toNat - 48)) 0
      if n < 4294967295 then some n else none
    else none

/-- Whether a key belongs in front of a new index: it is a smaller index. -/
def precedesIndex (index : Nat) (key : String) : Bool :=
  match arrayIndex? key with
  | some other => other ≤ index
  | none => false

/-- Writes an entry into a mapping: in place when the key occurs. A new index goes before larger
    indices and before all other keys, any other new key to the end. -/
def putField {α : Type u} (key : String) (value : α) (fields : List (String × α)) : List (String × α) :=
  if fields.any fun e => e.1 == key then
    fields.map fun e => if e.1 = key then (key, value) else e
  else
    match arrayIndex? key with
    | none => fields ++ [(key, value)]
    | some index =>
      fields.takeWhile (fun e => precedesIndex index e.1) ++
        (key, value) :: fields.dropWhile (fun e => precedesIndex index e.1)

/-- The entries in the order of a mapping. -/
def arrangeFields {α : Type u} (entries : List (String × α)) : List (String × α) :=
  entries.foldl (fun fields e => putField e.1 e.2 fields) []

namespace Value

/-- The mapping with the given entries; of a repeated key the last value counts. -/
def ofEntries (entries : List (String × Value)) : Value := .mapping (arrangeFields entries)

/-- The value of a field of a mapping; `absent` where there is none. -/
def field (fields : List (String × Value)) (key : String) : Value := (fields.lookup key).getD .absent

/-- The items of a list as fields, named by their places. -/
def indexed (items : List Value) : List (String × Value) :=
  items.zipIdx.map fun e => (toString e.2, e.1)

/-- All fields that can be looked up in a value, its own first. -/
def visible : Value → List (String × Value)
  | .mapping fields => fields
  | .derived fields base =>
    fields ++ base.visible.filter fun e => !(fields.any fun f => f.1 == e.1)
  | .list items => indexed items
  | _ => []

def ownFields? : Value → Option (List (String × Value))
  | .mapping fields => some fields
  | .derived fields _ => some fields
  | _ => none

/-- The fields that can be looked up in a mapping. -/
def fields? (v : Value) : Option (List (String × Value)) := v.ownFields?.map fun _ => v.visible

def ofText? : Option String → Value
  | none => .absent
  | some s => .text s

end Value
end WorkflowCompiler
