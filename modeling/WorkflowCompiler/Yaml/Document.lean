import WorkflowCompiler.Yaml.KeyText

/-!
# YAML documents

A text is read as tokens, the tokens as trees, a tree as a node, and a node as a
value. A text holds one document at most; without one its value is null.
-/
namespace WorkflowCompiler.Yaml

mutual

def Node.toValue : Node → Value
  | .scalar _ _ value => value
  | .list items => .list (itemValues items)
  | .mapping entries => .ofEntries (entryValues entries)

def itemValues : List Node → List Value
  | [] => []
  | item :: rest => item.toValue :: itemValues rest

/-- The fields that entries stand for. A value that is left out is null. -/
def entryValues : List (Node × Option Node) → List (String × Value)
  | [] => []
  | (key, some value) :: rest => (key.fieldName, value.toValue) :: entryValues rest
  | (key, none) :: rest => (key.fieldName, .null) :: entryValues rest

end

/-- The value of documents, if there is one at most and only white space and comments follow the
    markers of their ends. -/
def valueOf? (documents : List DocumentTree) (endings : List (List Token)) : Option Value :=
  match documents with
  | [] => some .null
  | [d] =>
    if endings.all fun after => (endOf? false 0 after).isSome then d.node?.map Node.toValue else none
  | _ => none

/-- The value of a YAML text, if it is one. -/
def read? (s : String) : Option Value := do
  let (documents, endings) ← documents? (← tokens? s.toList)
  valueOf? documents endings

end WorkflowCompiler.Yaml
