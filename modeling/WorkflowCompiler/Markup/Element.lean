import WorkflowCompiler.Value

/-!
# Element trees

An element has a name, attributes in order, the text that stands directly in
it, and child elements in order. Attributes are ordered like the fields of a
mapping: names that are array indices come first.
-/
namespace WorkflowCompiler.Markup

structure Element where
  name : String
  attributes : List (String × String) := []
  /-- The text directly inside, without blanks at its ends when it was read. -/
  text : String := ""
  children : List Element := []
deriving Repr, BEq, Inhabited

namespace Element

/-- An element whose attributes are given one by one; a repeated name takes its last value. -/
def make (name : String) (attributes : List (String × String)) (text : String)
    (children : List Element) : Element :=
  { name, attributes := arrangeFields attributes, text, children }

def ofText (name text : String) : Element := { name, text }

def child? (e : Element) (name : String) : Option Element := e.children.find? fun c => c.name == name

def childrenNamed (e : Element) (name : String) : List Element :=
  e.children.filter fun c => c.name == name

def childText? (e : Element) (name : String) : Option String := (e.child? name).map Element.text

def attribute? (e : Element) (name : String) : Option String := e.attributes.lookup name

def append (e : Element) (child : Element) : Element := { e with children := e.children ++ [child] }

theorem child?_append (e c : Element) (name : String) :
    (e.append c).child? name = (e.child? name).or (if c.name == name then some c else none) := by
  unfold child? append
  rw [List.find?_append]
  congr 1
  by_cases h : c.name = name <;> simp [h]

theorem childrenNamed_append (e c : Element) (name : String) :
    (e.append c).childrenNamed name = e.childrenNamed name ++ if c.name == name then [c] else [] := by
  unfold childrenNamed append
  rw [List.filter_append]
  by_cases h : c.name = name <;> simp [h]

end Element
end WorkflowCompiler.Markup
