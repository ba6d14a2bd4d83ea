/-!
# Cutting texts at marks

The first occurrence of a mark splits a text into what is before it and what is
after it.
-/
namespace WorkflowCompiler.Text

/-- The text after a given beginning. -/
def afterPrefix? : List Char → List Char → Option (List Char)
  | [], cs => some cs
  | _ :: _, [] => none
  | m :: mark, c :: cs => if m = c then afterPrefix? mark cs else none

/-- What is before and after the first occurrence of a mark. -/
def breakOn (mark : List Char) : List Char → Option (List Char × List Char)
  | [] => (afterPrefix? mark []).map fun rest => ([], rest)
  | c :: cs =>
    match afterPrefix? mark (c :: cs) with
    | some rest => some ([], rest)
    | none => (breakOn mark cs).map fun r => (c :: r.1, r.2)

/-- What is after the first occurrence of a mark; nothing where there is none. -/
def afterMark (mark cs : List Char) : List Char := ((breakOn mark cs).map Prod.snd).getD []

theorem eq_append_of_afterPrefix? {mark cs rest : List Char} (h : afterPrefix? mark cs = some rest) :
    cs = mark ++ rest := by
  induction mark generalizing cs with
  | nil => simpa [afterPrefix?] using h
  | cons m mark ih =>
    cases cs with
    | nil => simp [afterPrefix?] at h
    | cons c cs =>
      by_cases e : m = c
      · subst e
        simp only [afterPrefix?, if_true] at h
        rw [ih h]
        rfl
      · simp [afterPrefix?, e] at h

theorem length_of_afterPrefix? {mark cs rest : List Char} (h : afterPrefix? mark cs = some rest) :
    rest.length + mark.length = cs.length := by
  rw [eq_append_of_afterPrefix? h, List.length_append]
  omega

/-- Nothing is lost at the cut. -/
theorem eq_append_of_breakOn {mark cs before rest : List Char} (h : breakOn mark cs = some (before, rest)) :
    cs = before ++ mark ++ rest := by
  induction cs generalizing before with
  | nil =>
    obtain ⟨r, hr, e⟩ := Option.map_eq_some_iff.1 h
    cases e
    simpa using eq_append_of_afterPrefix? hr
  | cons c cs ih =>
    unfold breakOn at h
    split at h
    · rename_i r hr
      cases h
      simpa using eq_append_of_afterPrefix? hr
    · obtain ⟨⟨b, r⟩, hr, e⟩ := Option.map_eq_some_iff.1 h
      cases e
      rw [ih hr]
      simp

theorem length_of_breakOn {mark cs before rest : List Char} (h : breakOn mark cs = some (before, rest)) :
    rest.length + mark.length ≤ cs.length := by
  rw [eq_append_of_breakOn h]
  simp only [List.length_append]
  omega

theorem length_afterMark_le (mark cs : List Char) : (afterMark mark cs).length ≤ cs.length := by
  unfold afterMark
  cases h : breakOn mark cs with
  | none => simp
  | some r =>
    obtain ⟨before, rest⟩ := r
    have := length_of_breakOn h
    simp only [Option.map_some, Option.getD_some]
    omega

end WorkflowCompiler.Text
