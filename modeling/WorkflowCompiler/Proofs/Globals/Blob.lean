import WorkflowCompiler.Globals.Blob
import WorkflowCompiler.Proofs.Codec.Base64
import WorkflowCompiler.Proofs.Codec.Utf8
import WorkflowCompiler.Proofs.Codec.Zlib
import WorkflowCompiler.Proofs.Dict
import WorkflowCompiler.Proofs.Fields
import WorkflowCompiler.Proofs.Json.RoundTrip

/-!
An opaque text holds the global defaults it was made of (`ofValue?_reread`,
`decode?_encode`).
-/
namespace WorkflowCompiler.GlobalDefaults
open Json

theorem decodeText?_encodeText (s : String) : decodeText? (encodeText s) = some s := by
  rw [decodeText?, encodeText, Codec.decodeBase64_encodeBase64, Codec.decompress_compress, Option.map_some,
    Codec.decodeUtf8_encodeUtf8, String.ofList_toList]

/-- The value of the configuration of global defaults. -/
def configurationValue : Option (Dict String) → Value
  | none => .absent
  | some d => .list (d.entries.map fun e => .list [.text e.1, .text e.2])

theorem toValue_eq (g : GlobalDefaults) : g.toValue =
    .mapping [("jobTracker", .ofText? g.jobTracker), ("nameNode", .ofText? g.nameNode),
      ("jobXmls", .list (g.jobXmls.map .text)), ("configuration", configurationValue g.configuration)] := by
  rw [toValue]
  cases g.configuration <;> rfl

theorem legible_configurationValue (d : Option (Dict String)) : Legible (configurationValue d) := by
  cases d with
  | none => exact .absent
  | some d =>
    refine .list fun v member => ?_
    obtain ⟨e, -, rfl⟩ := List.mem_map.mp member
    exact legible_texts [e.1, e.2]

theorem legible_toValue (g : GlobalDefaults) : Legible g.toValue := by
  rw [toValue_eq]
  refine .mapping ?_
  simp only [List.forall_mem_cons]
  exact ⟨legible_ofText? _, legible_ofText? _, legible_texts _, legible_configurationValue _, List.forall_mem_nil _⟩

theorem rereadItems_texts (texts : List String) : rereadItems (texts.map .text) = texts.map .text := by
  induction texts with
  | nil => rw [List.map_nil, rereadItems]
  | cons s rest ih => rw [List.map_cons, rereadItems, reread, ih]

theorem rereadItems_pairs (entries : List (String × String)) :
    rereadItems (entries.map fun e => .list [.text e.1, .text e.2]) = entries.map fun e => .list [.text e.1, .text e.2] := by
  induction entries with
  | nil => rw [List.map_nil, rereadItems]
  | cons e rest ih =>
    have pair := rereadItems_texts [e.1, e.2]
    rw [List.map_cons, List.map_singleton] at pair
    rw [List.map_cons, rereadItems, reread, pair, ih]

theorem readTexts_texts (texts : List String) : readTexts (.list (texts.map .text)) = some texts := by
  rw [readTexts]
  induction texts with
  | nil => rfl
  | cons s rest ih => rw [List.map_cons, List.mapM_cons, ih]; rfl

theorem readPairs_configurationValue (d : Option (Dict String)) : readPairs (configurationValue d) = some d := by
  cases d with
  | none => rfl
  | some d =>
    have entries (es : List (String × String)) :
        (es.map fun e => Value.list [.text e.1, .text e.2]).mapM readPair = some es := by
      induction es with
      | nil => rfl
      | cons e rest ih => rw [List.map_cons, List.mapM_cons, ih]; rfl
    rw [configurationValue, readPairs, entries, Option.map_some, Dict.ofList_entries]

theorem readOptionalText_ofText? (s : Option String) : readOptionalText (.ofText? s) = some s := by
  cases s <;> rfl

theorem rereadField_ofText? (s : Option String) : rereadField (.ofText? s) = .ofText? s := by
  cases s with
  | none => rfl
  | some s =>
    rw [Value.ofText?, rereadField, reread]
    intro absent
    cases absent

theorem rereadField_texts (texts : List String) : rereadField (.list (texts.map .text)) = .list (texts.map .text) := by
  rw [rereadField, reread, rereadItems_texts]
  intro absent
  cases absent

theorem rereadField_configurationValue (d : Option (Dict String)) : rereadField (configurationValue d) = configurationValue d := by
  cases d with
  | none => rfl
  | some d =>
    rw [configurationValue, rereadField, reread, rereadItems_pairs]
    intro absent
    cases absent

theorem ofValue?_reread (g : GlobalDefaults) : ofValue? (reread g.toValue) = some g := by
  rw [toValue_eq]
  set fields : List (String × Value) := [("jobTracker", .ofText? g.jobTracker), ("nameNode", .ofText? g.nameNode),
    ("jobXmls", .list (g.jobXmls.map .text)), ("configuration", configurationValue g.configuration)]
  have keys : fields.map Prod.fst = ["jobTracker", "nameNode", "jobXmls", "configuration"] := rfl
  have named : ∀ k ∈ fields.map Prod.fst, arrayIndex? k = none := by
    rw [keys]
    decide
  have distinct : (fields.map Prod.fst).Nodup := by
    rw [keys]
    decide
  have jobTracker : Value.field fields "jobTracker" = .ofText? g.jobTracker := rfl
  have nameNode : Value.field fields "nameNode" = .ofText? g.nameNode := rfl
  have jobXmls : Value.field fields "jobXmls" = .list (g.jobXmls.map .text) := rfl
  have configuration : Value.field fields "configuration" = configurationValue g.configuration := rfl
  rw [reread_mapping named distinct, ofValue?]
  simp only [field_rereadFields distinct, jobTracker, nameNode, jobXmls, configuration, rereadField_ofText?,
    rereadField_texts, rereadField_configurationValue, readOptionalText_ofText?, readTexts_texts,
    readPairs_configurationValue, Option.bind_eq_bind, Option.bind_some]
  rfl

theorem decode?_encode (g : GlobalDefaults) : decode? (encode g) = some g := by
  simp only [decode?, encode, decodeText?_encodeText, read_compact (legible_toValue g), ofValue?_reread, Option.bind_eq_bind,
    Option.bind_some]

/-- Readable by `decode` means readable at all, since there is one fault. -/
theorem decode_eq_ok {blob : String} {g : GlobalDefaults} : decode blob = .ok g ↔ decode? blob = some g := by
  rw [decode]
  cases decode? blob <;> simp

/-- Any defaults come back from their text: what is absent stays absent, and lists and configurations keep their order. -/
theorem decode_encode (g : GlobalDefaults) : decode g.encode = .ok g := decode_eq_ok.mpr (decode?_encode g)

end WorkflowCompiler.GlobalDefaults
