import WorkflowCompiler.Json.Token
import WorkflowCompiler.Value

/-!
# Reading JSON

The value of a JSON text, or nothing where the text is not JSON. A key that is
repeated takes its last value.
-/
namespace WorkflowCompiler.Json

mutual

def valueAt : Nat → List Token → Option (Value × List Token)
  | 0, _ => none
  | _ + 1, .null :: rest => some (.null, rest)
  | _ + 1, .bool b :: rest => some (.bool b, rest)
  | _ + 1, .number n :: rest => some (.number n, rest)
  | _ + 1, .text s :: rest => some (.text s, rest)
  | _ + 1, .openList :: .closeList :: rest => some (.list [], rest)
  | fuel + 1, .openList :: rest => (itemsAt fuel rest).map fun r => (.list r.1, r.2)
  | _ + 1, .openMapping :: .closeMapping :: rest => some (.mapping [], rest)
  | fuel + 1, .openMapping :: rest => (fieldsAt fuel rest).map fun r => (Value.ofEntries r.1, r.2)
  | _ + 1, _ => none

/-- The items of a list up to its closing bracket, at least one. -/
def itemsAt : Nat → List Token → Option (List Value × List Token)
  | 0, _ => none
  | fuel + 1, ts =>
    match valueAt fuel ts with
    | some (v, .comma :: rest) => (itemsAt fuel rest).map fun r => (v :: r.1, r.2)
    | some (v, .closeList :: rest) => some ([v], rest)
    | _ => none

/-- The entries of a mapping up to its closing brace, at least one. -/
def fieldsAt : Nat → List Token → Option (List (String × Value) × List Token)
  | 0, _ => none
  | fuel + 1, .text key :: .colon :: ts =>
    match valueAt fuel ts with
    | some (v, .comma :: rest) => (fieldsAt fuel rest).map fun r => ((key, v) :: r.1, r.2)
    | some (v, .closeMapping :: rest) => some ([(key, v)], rest)
    | _ => none
  | _ + 1, _ => none

end

/-- The value of a JSON text. Every call reads a token or hands over to one that does, so
    twice as many calls as there are tokens are enough. -/
def read (s : String) : Option Value :=
  match tokens s.toList with
  | none => none
  | some ts =>
    match valueAt (2 * ts.length + 1) ts with
    | some (v, []) => some v
    | _ => none

end WorkflowCompiler.Json
