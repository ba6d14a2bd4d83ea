import WorkflowCompiler.Text.Units

/-!
# Similar words

Which of some words were likely meant by a misspelled one. An edit inserts, drops
or replaces one code unit, or swaps two that stand next to each other; no part is
edited twice.
-/
namespace WorkflowCompiler.CommandLine
open Text

/-- Whether a word becomes another one by at most `edits` edits. -/
def within (edits : Nat) (a b : List Nat) : Bool :=
  match a, b with
  | [], [] => true
  | [], _ :: b =>
    match edits with
    | 0 => false
    | n + 1 => within n [] b
  | _ :: a, [] =>
    match edits with
    | 0 => false
    | n + 1 => within n a []
  | x :: a, y :: b =>
    (x == y && within edits a b) ||
      match edits with
      | 0 => false
      | n + 1 =>
        within n a b || within n a (y :: b) || within n (x :: a) b ||
          match a, b with
          | x' :: a, y' :: b => x == y' && x' == y && within n a b
          | _, _ => false
termination_by (edits, a.length + b.length)

/-- The most edits between a word and one that was likely meant. -/
def editLimit : Nat := 3

/-- The number of edits between two words, if it is within the limit. -/
def distance? (a b : List Nat) : Option Nat := (List.range (editLimit + 1)).find? fun n => within n a b

/-- The distance to a word that is similar enough: it has more than one unit, and more than two
    fifths of the longer word are kept. -/
def likeness? (word candidate : String) : Option Nat :=
  let length := max (width word) (width candidate)
  match distance? (codeUnits word) (codeUnits candidate) with
  | some d => if 1 < width candidate ∧ 2 * length < 5 * (length - d) then some d else none
  | none => none

def eachOnce : List String → List String
  | [] => []
  | w :: rest => w :: (eachOnce rest).filter fun x => x != w

/-- The candidates that are most similar to a word, in alphabetical order. -/
def mostSimilar (word : String) (candidates : List String) : List String :=
  let rated := (eachOnce candidates).filterMap fun c => (likeness? word c).map fun d => (d, c)
  let best := (rated.map Prod.fst).foldl min editLimit
  ((rated.filter fun r => r.1 == best).map Prod.snd).mergeSort

/-- The hint that names words. -/
def hint : List String → String
  | [] => ""
  | [word] => "\n(Did you mean " ++ word ++ "?)"
  | words => "\n(Did you mean one of " ++ ", ".intercalate words ++ "?)"

/-- The hint for a misspelled word. Two hyphens in front are left out of the comparison. -/
def suggest (word : String) (candidates : List String) : String :=
  if word.startsWith "--" then
    let bare := fun (s : String) => String.ofList (s.toList.drop 2)
    hint ((mostSimilar (bare word) (candidates.map bare)).map fun s => "--" ++ s)
  else hint (mostSimilar word candidates)

end WorkflowCompiler.CommandLine
