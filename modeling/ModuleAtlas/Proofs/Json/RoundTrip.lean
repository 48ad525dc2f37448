import ModuleAtlas.Proofs.Json.Settings

/-!
# Reading back what was written

Each type of the data model is read back from JSON as it was written. Other shapes are read, too:
arrays in place of objects, objects with more or fewer fields, and objects in place of names. What
is read from such a value is written in the one shape of its type, which is read as the same again.
Only what holds a path that is not text cannot be written, and nothing like it is ever read.
-/

namespace ModuleAtlas

open Json Json.Value

section RoundTrip

variable {α : Type} {write? : α → Option Value} {write : α → Value} {read : Value → Option α}

/-- What is written for something is read as that thing, and whatever is read can be written. -/
structure RoundTrip (write? : α → Option Value) (read : Value → Option α) : Prop where
  written : ∀ x v, write? x = some v → read v = some x
  writable : ∀ v x, read v = some x → ∃ w, write? x = some w

/-- Writing what was read brings it into a form that is read and written as the same again. -/
theorem RoundTrip.accepted (h : RoundTrip write? read) {v : Value} {x : α}
    (hRead : read v = some x) :
    ∃ w, write? x = some w ∧ read w = some x ∧ ∀ y, read w = some y → write? y = some w := by
  obtain ⟨w, hWritten⟩ := h.writable v x hRead
  have hAgain := h.written x w hWritten
  refine ⟨w, hWritten, hAgain, fun y hOther => ?_⟩
  rw [← Option.some.inj (hAgain.symm.trans hOther), hWritten]

end RoundTrip

namespace ReferenceKind

theorem ofName?_eq_some_iff (s : String) (k : ReferenceKind) : ofName? s = some k ↔ s = k.name := by
  constructor
  · intro h
    rw [ofName?.eq_def] at h
    split at h <;> cases h <;> rfl
  · rintro rfl
    cases k <;> rfl

theorem ofJson?_toJson (k : ReferenceKind) : ofJson? k.toJson = some k :=
  (ofName?_eq_some_iff _ k).mpr rfl

end ReferenceKind

namespace Reference

theorem ofJson?_toJson (r : Reference) : ofJson? r.toJson = some r := by
  have hFields : r.toJson.record? fieldNames =
      some [some (string r.specifier), some r.kind.toJson, some (bool r.typeOnly)] :=
    rfl
  rw [ofJson?, hFields]
  simp [required?, orElse?, string?, bool?, ReferenceKind.ofJson?_toJson]

end Reference

namespace Edge

theorem ofJson?_toJson (e : Edge) : ofJson? e.toJson = some e := by
  have hFields : e.toJson.record? fieldNames =
      some [some (string e.source), some (string e.target)] :=
    rfl
  rw [ofJson?, hFields]
  rfl

end Edge

namespace Graph

theorem ofJson?_toJson (g : Graph) : ofJson? g.toJson = some g := by
  have hFields : g.toJson.record? fieldNames =
      some [some (strings g.nodes), some (array (g.edges.map Edge.toJson))] :=
    rfl
  rw [ofJson?, hFields]
  simp [required?, list?_strings, list?_array Edge.ofJson?_toJson]

end Graph

namespace ModuleId

theorem ofJson?_eq_some_iff (v : Value) (m : ModuleId) :
    ofJson? v = some m ↔ v = string m.text ∧ Text.isText m.text = true := by
  rw [ofJson?, Option.map_eq_some_iff]
  constructor
  · rintro ⟨p, hPath, rfl⟩
    exact Path.ofJson?_eq_some_iff.mp hPath
  · intro hText
    exact ⟨m.path, Path.ofJson?_eq_some_iff.mpr hText, rfl⟩

end ModuleId

example : Reference.ofJson? (array [string "./a", object [("Dynamic", null)]]) =
    some ⟨"./a", .dynamic, false⟩ := rfl

example : Config.ofJson? (object [("fence", string "none"), ("mode", object [("entries", null)])]) =
    some { mode? := some .entries, fence := .bare } := rfl

end ModuleAtlas
