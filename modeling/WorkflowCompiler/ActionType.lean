import WorkflowCompiler.Dict

/-!
# Action types

Which types of action exist, and what an action of a type inherits. Types that a
site adds replace built-in ones of the same name in their place.
-/
namespace WorkflowCompiler

structure ActionType where
  type : String
  /-- An action needs a name node and a job tracker. -/
  requiresEndpoints : Bool := false
  /-- An action inherits job files and configuration. -/
  supportsConfiguration : Bool := false
deriving DecidableEq, Repr, Inhabited

/-- The types that always exist. -/
def builtinActionTypes : List ActionType :=
  [⟨"map-reduce", true, true⟩, ⟨"pig", true, true⟩, ⟨"hive", true, true⟩, ⟨"hive2", true, true⟩,
    ⟨"sqoop", true, true⟩, ⟨"shell", true, true⟩, ⟨"java", true, true⟩, ⟨"spark", true, true⟩,
    ⟨"distcp", true, true⟩, ⟨"fs", false, true⟩, ⟨"sub-workflow", false, false⟩,
    ⟨"email", false, false⟩, ⟨"ssh", false, false⟩]

/-- A set of action types, each under its name. -/
structure Registry where
  types : Dict ActionType

namespace Registry

/-- The registry of the given types; of two with one name the later one counts. -/
def ofList (types : List ActionType) : Registry := ⟨Dict.ofList (types.map fun t => (t.type, t))⟩

/-- The built-in types and those that a site adds. -/
def withBuiltins (extra : List ActionType) : Registry := ofList (builtinActionTypes ++ extra)

def get? (r : Registry) (type : String) : Option ActionType := r.types.get? type

def supports (r : Registry) (type : String) : Bool := (r.get? type).isSome

/-- All types in order. -/
def toList (r : Registry) : List ActionType := r.types.entries.map Prod.snd

end Registry
end WorkflowCompiler
