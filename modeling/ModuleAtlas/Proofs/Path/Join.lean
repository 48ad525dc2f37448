import ModuleAtlas.Proofs.Path.Spelling
import ModuleAtlas.Proofs.Text

/-!
# Joined paths

A relative path joined to a directory adds its own components to those of the directory, however
the directory is spelled. So two files of one directory are one place exactly if they share a name.
-/

namespace ModuleAtlas.Path

open Component (Plain)

/-- The components of a path without the mark at its front: neither the root nor a leading `.`. -/
def inner (p : Path) : List Component := p.segments.filterMap ofSegment?

theorem components_eq (p : Path) :
    p.components = if p.isAbsolute then .root :: p.inner
      else if p.segments.head? = some "." then .here :: p.inner
      else p.inner := rfl

theorem segments_append_slash (s t : String) :
    (Path.mk (s ++ "/" ++ t)).segments = (Path.mk s).segments ++ (Path.mk t).segments := by
  have hSlash : "/".toList = ['/'] := rfl
  rw [segments, String.toList_append, String.toList_append, hSlash, List.append_assoc,
    List.singleton_append, List.splitOn_append_cons_self, List.map_append]
  rfl

theorem segments_ne_nil (p : Path) : p.segments ≠ [] := by
  simp [segments, List.splitOn_ne_nil]

/-- A slash in front of everything is the root; any other only ends the piece before it. -/
theorem components_append_slash (s t : String) :
    (Path.mk (s ++ "/" ++ t)).components =
      (if s = "" then [.root] else (Path.mk s).components) ++ (Path.mk t).inner := by
  have hInner : (Path.mk (s ++ "/" ++ t)).inner = (Path.mk s).inner ++ (Path.mk t).inner := by
    rw [inner, segments_append_slash, List.filterMap_append]
    rfl
  by_cases hEmpty : s = ""
  · subst hEmpty
    have hAbsolute : (Path.mk ("" ++ "/" ++ t)).isAbsolute = true := by simp [isAbsolute]
    have hNone : (Path.mk "").inner = [] := by decide
    rw [components_eq, if_pos hAbsolute, hInner, hNone, if_pos rfl]
    rfl
  · have hHead : (Path.mk (s ++ "/" ++ t)).segments.head? = (Path.mk s).segments.head? := by
      rw [segments_append_slash, List.head?_append_of_ne_nil _ (segments_ne_nil _)]
    have hText : s.toList ≠ [] := by simpa using hEmpty
    have hAbsolute : (Path.mk (s ++ "/" ++ t)).isAbsolute = (Path.mk s).isAbsolute := by
      rw [isAbsolute, isAbsolute, String.toList_append, String.toList_append, List.append_assoc,
        List.head?_append_of_ne_nil _ hText]
    rw [if_neg hEmpty, components_eq, components_eq, hInner, hHead, hAbsolute]
    split
    · rfl
    · split
      · rfl
      · rfl

theorem components_join_relative {p q : Path} (hText : p.text ≠ "") (hq : q.isAbsolute = false) :
    (p.join q).components = p.components ++ q.inner := by
  obtain ⟨text⟩ := p
  rw [join, if_neg (by simpa [hq] using hText)]
  split
  · rename_i hEnds
    obtain ⟨front, rfl⟩ := Text.endsWith_iff.mp hEnds
    have hClosed := components_append_slash front ""
    have hNone : (Path.mk "").inner = [] := by decide
    rw [String.append_empty, hNone, List.append_nil] at hClosed
    rw [components_append_slash, hClosed]
  · rw [components_append_slash, if_neg hText]

theorem inner_name {s : String} (h : Plain (.name s)) : (Path.mk s).inner = [.name s] := by
  have hSlash : '/' ∉ s.toList := h.slash_free
  have hSegments : (Path.mk s).segments = [s] := by
    rw [segments, List.splitOn_eq_singleton hSlash]
    simp
  have hOf : ofSegment? s = some (.name s) := h.ofSegment
  rw [inner, hSegments, List.filterMap_cons_some hOf, List.filterMap_nil]

theorem components_name {s : String} (h : Plain (.name s)) : (Path.mk s).components = [.name s] := by
  have hSettled : Settled [.name s] := .relative (by simpa using h)
  have hSpelled : ofComponents [.name s] = ⟨s⟩ := by
    rw [ofComponents]
    · simp [Component.text]
    · simp
  rw [← hSpelled]
  exact components_ofComponents hSettled (by simp)

/-- A file name is one more component behind those of its directory. -/
theorem components_join {p : Path} {s : String} (h : Plain (.name s)) :
    (p.join ⟨s⟩).components = p.components ++ [.name s] := by
  have hSlash : '/' ∉ s.toList := h.slash_free
  have hRelative : (Path.mk s).isAbsolute = false := by
    rw [isAbsolute, beq_eq_false_iff_ne]
    intro hHead
    exact hSlash (List.mem_of_head? hHead)
  by_cases hEmpty : p.text = ""
  · obtain ⟨text⟩ := p
    subst hEmpty
    have hNone : (Path.mk "").components = [] := by decide
    rw [join, if_pos (by simp), components_name h, hNone]
    rfl
  · rw [components_join_relative hEmpty hRelative, inner_name h]

theorem same_join_iff {p : Path} {s t : String} (hs : Plain (.name s)) (ht : Plain (.name t)) :
    (p.join ⟨s⟩).same (p.join ⟨t⟩) = true ↔ s = t := by
  rw [same, beq_iff_eq, components_join hs, components_join ht, List.append_cancel_left_eq]
  simp

end ModuleAtlas.Path
