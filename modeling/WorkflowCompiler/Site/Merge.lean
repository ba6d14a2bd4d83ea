import WorkflowCompiler.Value

/-!
# Layers of settings

Settings come in layers. An upper layer is written over a lower one: mappings are
merged field by field, and every other value replaces the one below it. A field
without a value changes nothing. A field of one name is not written: what it
holds becomes the value that the mapping is derived from. Only own fields go
from one layer to the next.
-/
namespace WorkflowCompiler.Site

/-- The name of the field that gives the value to derive from. -/
def baseField : String := "__proto__"

/-- Settings that layers are being written to: the fields written, and what they are derived from,
    if they are. -/
structure Layered where
  own : List (String × Value)
  base : Value := .absent

namespace Layered

/-- Whether a name stands for the value to derive from. A field that has it already is a field. -/
def isBase (l : Layered) (key : String) : Bool :=
  key == baseField && !(l.own.any fun e => e.1 == key)

def toValue (l : Layered) : Value :=
  match l.base with
  | .absent => .mapping l.own
  | base => .derived l.own base

/-- What a field is written over. -/
def below (l : Layered) (key : String) : Value :=
  if l.isBase key then
    match l.base with
    | .absent => .mapping []
    | base => base
  else Value.field l.toValue.visible key

/-- Derives the settings from a value that has fields; no other value can be derived from. -/
def deriveFrom (l : Layered) (v : Value) : Layered :=
  match v with
  | .mapping _ | .derived .. | .list _ => { l with base := v }
  | _ => l

def write (l : Layered) (key : String) (v : Value) : Layered :=
  if l.isBase key then l.deriveFrom v else { l with own := putField key v l.own }

end Layered

mutual

def mergeFields (lower : Layered) : List (String × Value) → Layered
  | [] => lower
  | (key, v) :: rest => mergeFields (mergeField lower key v) rest

def mergeField (lower : Layered) (key : String) : Value → Layered
  | .absent => lower
  | .mapping fields =>
    match (lower.below key).ownFields? with
    | some old => lower.write key (mergeFields { own := old } fields).toValue
    | none => lower.write key (.mapping fields)
  | .derived fields base =>
    match (lower.below key).ownFields? with
    | some old => lower.write key (mergeFields { own := old } fields).toValue
    | none => lower.write key (.derived fields base)
  | v => lower.write key v

end

/-- Writes the fields of an upper layer over the own fields of a lower one. -/
def merge (lower upper : List (String × Value)) : Layered := mergeFields { own := lower } upper

end WorkflowCompiler.Site
