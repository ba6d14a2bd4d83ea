/-!
# Log lines

Messages have levels. A log shows those that are at least as grave as its
threshold, each on a line with the time and the level.
-/
namespace WorkflowCompiler

/-- How grave a message is. -/
inductive LogLevel
  | debug | info | warn | error
deriving DecidableEq, Repr, Inhabited

namespace LogLevel

def all : List LogLevel := [.debug, .info, .warn, .error]

def text : LogLevel → String
  | .debug => "debug"
  | .info => "info"
  | .warn => "warn"
  | .error => "error"

def ofText? (s : String) : Option LogLevel := all.find? fun l => l.text == s

/-- The place of a level in the order. -/
def rank : LogLevel → Nat
  | .debug => 0
  | .info => 1
  | .warn => 2
  | .error => 3

def shows (threshold level : LogLevel) : Bool := threshold.rank ≤ level.rank

/-- The name of a level in a line. -/
def label : LogLevel → String
  | .debug => "DEBUG"
  | .info => "INFO"
  | .warn => "WARN"
  | .error => "ERROR"

def line (level : LogLevel) (time message : String) : String :=
  "[" ++ time ++ "] " ++ level.label ++ ": " ++ message

theorem ofText?_text (l : LogLevel) : ofText? l.text = some l := by
  cases l <;> decide

end LogLevel
end WorkflowCompiler
