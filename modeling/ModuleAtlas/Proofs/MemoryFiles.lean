import ModuleAtlas.Sink

/-!
# Texts in memory

Paths that compare equal are one place, and each place holds the text that was put there last.
-/

namespace ModuleAtlas

namespace Path

theorem same_iff {p q : Path} : p.same q = true ↔ p.components = q.components := by
  rw [same, beq_iff_eq]

theorem same_congr {p q : Path} (h : p.same q = true) (r : Path) : p.same r = q.same r := by
  rw [same, same, same_iff.mp h]

theorem same_comm (p q : Path) : p.same q = q.same p := by
  rw [same, same, Bool.beq_comm]

end Path

namespace MemoryFiles

def replace (p : Path) (text : String) (files : List (Path × String)) : List (Path × String) :=
  files.map fun f => if f.1.same p then (f.1, text) else f

theorem find?_replace_same {files : List (Path × String)} {p q : Path} (text : String)
    (hSame : p.same q = true) (hKnown : files.any (·.1.same p) = true) :
    ((replace p text files).find? (·.1.same q)).map Prod.snd = some text := by
  induction files with
  | nil => cases hKnown
  | cons f files ih =>
    rw [replace, List.map_cons, List.find?_cons]
    by_cases hHere : f.1.same p = true
    · have hFound : f.1.same q = true := by rw [Path.same_congr hHere, hSame]
      simp [hHere, hFound]
    · have hApart : f.1.same q = false := by
        rw [Path.same_comm, ← Path.same_congr hSame, Path.same_comm]
        simpa using hHere
      have hRest : files.any (·.1.same p) = true := by simpa [hHere] using hKnown
      rw [if_neg hHere, hApart]
      exact ih hRest

theorem find?_replace_other {p q : Path} (text : String) (hApart : p.same q = false)
    (files : List (Path × String)) :
    ((replace p text files).find? (·.1.same q)).map Prod.snd =
      (files.find? (·.1.same q)).map Prod.snd := by
  induction files with
  | nil => rfl
  | cons f files ih =>
    rw [replace, List.map_cons, List.find?_cons, List.find?_cons]
    by_cases hHere : f.1.same p = true
    · have hOther : f.1.same q = false := by rw [Path.same_congr hHere, hApart]
      simp only [hHere, if_true, hOther]
      exact ih
    · rw [if_neg hHere]
      cases f.1.same q with
      | true => rfl
      | false => exact ih

theorem get?_put (m : MemoryFiles) (p q : Path) (text : String) :
    (m.put p text).get? q = if p.same q then some text else m.get? q := by
  rw [put, get?, get?]
  by_cases hKnown : m.files.any (·.1.same p) = true
  · rw [if_pos hKnown]
    cases hSame : p.same q with
    | true => exact find?_replace_same text hSame hKnown
    | false => exact find?_replace_other text hSame m.files
  · rw [if_neg hKnown, List.find?_append, List.find?_singleton]
    cases hSame : p.same q with
    | false => simp
    | true =>
      have hNone : m.files.find? (·.1.same q) = none := by
        rw [List.find?_eq_none]
        intro f hf hFound
        apply hKnown
        rw [List.any_eq_true]
        refine ⟨f, hf, ?_⟩
        rw [Path.same_congr hFound, Path.same_comm, hSame]
      simp [hNone]

def putAll (m : MemoryFiles) (written : List (Path × String)) : MemoryFiles :=
  written.foldl (fun m w => m.put w.1 w.2) m

theorem get?_putAll_of_apart {q : Path} {written : List (Path × String)} (m : MemoryFiles)
    (hApart : ∀ w ∈ written, w.1.same q = false) : (m.putAll written).get? q = m.get? q := by
  induction written generalizing m with
  | nil => rfl
  | cons w written ih =>
    have hFirst : w.1.same q = false := hApart w (.head _)
    have hRest := ih (m.put w.1 w.2) fun v hv => hApart v (.tail _ hv)
    rw [get?_put, hFirst] at hRest
    exact hRest

theorem get?_putAll_last {p q : Path} (m : MemoryFiles) (before : List (Path × String))
    (text : String) {after : List (Path × String)} (hSame : p.same q = true)
    (hLast : ∀ w ∈ after, w.1.same q = false) :
    (m.putAll (before ++ (p, text) :: after)).get? q = some text := by
  have hSplit : m.putAll (before ++ (p, text) :: after) =
      ((m.putAll before).put p text).putAll after := by
    rw [putAll, List.foldl_append]
    rfl
  rw [hSplit, get?_putAll_of_apart _ hLast, get?_put, if_pos hSame]

end MemoryFiles

end ModuleAtlas
