import ModuleAtlas.Proofs.Files.Follow

/-!
# Paths below a directory

The path of a place below a directory is the path of the directory, a slash and the names below it.
-/

namespace ModuleAtlas

namespace Path

theorem eq_of_segments_eq {p q : Path} (h : p.segments = q.segments) : p = q := by
  have hPieces : p.text.toList.splitOn '/' = q.text.toList.splitOn '/' :=
    List.map_injective_iff.mpr (fun _ _ => String.ofList_inj.mp) h
  have hChars := congrArg ['/'].intercalate hPieces
  rw [List.intercalate_splitOn, List.intercalate_splitOn] at hChars
  obtain ⟨text⟩ := p
  obtain ⟨text'⟩ := q
  rw [mk.injEq, ← String.toList_inj]
  exact hChars

theorem segments_of_slash_free {s : String} (h : '/' ∉ s.toList) : (Path.mk s).segments = [s] := by
  rw [segments, List.splitOn_eq_singleton h]
  simp

/-- The last piece of a path stands alone or after a slash. -/
theorem getLast?_segments_iff {path name : String} :
    (Path.mk path).segments.getLast? = some name ↔
      '/' ∉ name.toList ∧ (path = name ∨ ∃ front, path = front ++ "/" ++ name) := by
  rw [List.getLast?_eq_some_iff]
  constructor
  · rintro ⟨pieces, hPieces⟩
    have hFree : ∀ s ∈ pieces ++ [name], '/' ∉ s.toList := by
      rw [← hPieces]
      exact fun s => slash_free_of_mem_segments
    have hName : '/' ∉ name.toList := hFree name (by simp)
    refine ⟨hName, ?_⟩
    by_cases hAlone : pieces = []
    · left
      have hSame : Path.mk path = Path.mk name := by
        apply eq_of_segments_eq
        rw [hPieces, hAlone, segments_of_slash_free hName]
        rfl
      exact congrArg Path.text hSame
    · right
      have hFront : (Path.mk ("/".intercalate pieces)).segments = pieces :=
        segments_intercalate (fun s hs => hFree s (List.mem_append_left _ hs)) hAlone
      have hSame : Path.mk path = Path.mk ("/".intercalate pieces ++ "/" ++ name) := by
        apply eq_of_segments_eq
        rw [hPieces, segments_append_slash, hFront, segments_of_slash_free hName]
      exact ⟨_, congrArg Path.text hSame⟩
  · rintro ⟨hName, rfl | ⟨front, rfl⟩⟩
    · exact ⟨[], segments_of_slash_free hName⟩
    · exact ⟨_, by rw [segments_append_slash, segments_of_slash_free hName]⟩

end Path

namespace Files

namespace IsName

variable {name : String} (h : IsName name)

include h

theorem segments : (Path.mk name).segments = [name] := Path.segments_of_slash_free h.2.2.2

theorem not_absolute : (Path.mk name).isAbsolute = false := by
  rw [Path.isAbsolute, beq_eq_false_iff_ne]
  intro hHead
  exact h.2.2.2 (List.mem_of_head? hHead)

end IsName

namespace Place

variable {dir names : Place}

theorem below?_append (names dir : Place) : (names ++ dir).below? dir = some names := by
  have hInside : dir.isSuffixOf (names ++ dir) = true :=
    List.isSuffixOf_iff_suffix.mpr (List.suffix_append names dir)
  rw [below?, if_pos hInside]
  simp

theorem segments_relative (hNames : ∀ s ∈ names, IsName s) (hSome : names ≠ []) :
    (Path.mk (relative names)).segments = names.reverse := by
  apply Path.segments_intercalate
  · simpa using fun s hs => (hNames s hs).2.2.2
  · simpa using hSome

theorem closeWithSlash_path (hDir : ∀ s ∈ dir, IsName s) :
    Text.closeWithSlash dir.path.text = if dir = [] then "/" else dir.path.text ++ "/" := by
  split
  · subst_vars
    decide
  · rename_i hSome
    rw [Text.closeWithSlash, if_neg]
    intro hEnds
    rcases Bool.or_eq_true_iff.mp hEnds with hEmpty | hSlash
    · exact Path.text_ne_empty dir.isAbsolute_path (of_decide_eq_true hEmpty)
    · -- A slash at the end would leave an empty last piece, and names are not empty.
      obtain ⟨front, hText⟩ := Text.endsWith_iff.mp hSlash
      have hPath : dir.path = ⟨front ++ "/" ++ ""⟩ := by
        rw [String.append_empty, ← hText]
      have hPieces := segments_path hDir hSome
      rw [hPath, Path.segments_append_slash] at hPieces
      cases dir with
      | nil => exact hSome rfl
      | cons name dir =>
        rw [List.reverse_cons, ← List.cons_append] at hPieces
        have hLast : (Path.mk "").segments = [name] := List.append_inj_right' hPieces rfl
        obtain rfl : "" = name := List.singleton_injective hLast
        exact (hDir "" (by simp)).1 rfl

theorem path_append (hNames : ∀ s ∈ names ++ dir, IsName s) (hSome : names ≠ []) :
    Place.path (names ++ dir) = ⟨Text.closeWithSlash dir.path.text ++ relative names⟩ := by
  have hBelow : ∀ s ∈ names, IsName s := fun s hs => hNames s (List.mem_append_left _ hs)
  have hDir : ∀ s ∈ dir, IsName s := fun s hs => hNames s (List.mem_append_right _ hs)
  apply Path.eq_of_segments_eq
  rw [segments_path hNames (by simp [hSome]), closeWithSlash_path hDir, List.reverse_append]
  split
  · subst_vars
    rw [Path.segments_slash, segments_relative hBelow hSome]
    rfl
  · rename_i hNested
    rw [Path.segments_append_slash, segments_relative hBelow hSome, segments_path hDir hNested]
    rfl

theorem exists_path_cons {name : String} {dir : Place} (hNames : ∀ s ∈ name :: dir, IsName s) :
    ∃ front, path (name :: dir) = ⟨front ++ "/" ++ name⟩ ∧
      (Path.mk front).segments = "" :: dir.reverse := by
  have hPieces : (path (name :: dir)).segments = ("" :: dir.reverse) ++ [name] := by
    rw [Place.segments_path hNames (by simp), List.reverse_cons, List.cons_append]
  have hLast := List.getLast?_eq_some_iff.mpr ⟨_, hPieces⟩
  obtain ⟨hName, hAlone | ⟨front, hFront⟩⟩ := Path.getLast?_segments_iff.mp hLast
  · have hPath : path (name :: dir) = ⟨name⟩ := congrArg Path.mk hAlone
    rw [hPath, Path.segments_of_slash_free hName] at hPieces
    have hLength := congrArg List.length hPieces
    simp at hLength
  · have hPath : path (name :: dir) = ⟨front ++ "/" ++ name⟩ := congrArg Path.mk hFront
    rw [hPath, Path.segments_append_slash, Path.segments_of_slash_free hName] at hPieces
    exact ⟨front, hPath, List.append_inj_left' hPieces rfl⟩

/-- A path that goes on inside the last name of another one is the path of its neighbour. -/
theorem dir_eq_of_text_eq {name own rest : String} {dir above : Place}
    (hNames : ∀ s ∈ name :: dir, IsName s) (hOwn : ∀ s ∈ own :: above, IsName s)
    (hRest : '/' ∉ rest.toList)
    (hText : (path (name :: dir)).text = (path (own :: above)).text ++ rest) :
    above = dir := by
  obtain ⟨front, hPath, hDir⟩ := exists_path_cons hNames
  obtain ⟨front', hPath', hAbove⟩ := exists_path_cons hOwn
  have hName : '/' ∉ name.toList := (hNames name (.head _)).2.2.2
  have hLonger : '/' ∉ (own ++ rest).toList := by
    simpa [hRest] using (hOwn own (.head _)).2.2.2
  have hSame : front ++ "/" ++ name = front' ++ "/" ++ (own ++ rest) := by
    rw [hPath, hPath'] at hText
    rw [← String.append_assoc]
    exact hText
  have hPieces := congrArg (Path.segments ∘ Path.mk) hSame
  rw [Function.comp_apply, Function.comp_apply, Path.segments_append_slash,
    Path.segments_append_slash, Path.segments_of_slash_free hName,
    Path.segments_of_slash_free hLonger, hDir, hAbove] at hPieces
  have hBeside := List.append_inj_left' hPieces rfl
  simpa using hBeside.symm

theorem not_absolute_relative (hNames : ∀ s ∈ names, IsName s) (hSome : names ≠ []) :
    (Path.mk (relative names)).isAbsolute = false := by
  rw [Bool.eq_false_iff]
  intro hAbsolute
  have hHead := Path.segments_absolute hAbsolute
  rw [segments_relative hNames hSome] at hHead
  exact (hNames "" (by simpa using List.mem_of_head? hHead)).1 rfl

theorem join_path (hNames : ∀ s ∈ names ++ dir, IsName s) (hSome : names ≠ []) :
    dir.path.join ⟨relative names⟩ = Place.path (names ++ dir) := by
  have hBelow : ∀ s ∈ names, IsName s := fun s hs => hNames s (List.mem_append_left _ hs)
  have hText : dir.path.text ≠ "" := Path.text_ne_empty dir.isAbsolute_path
  rw [path_append hNames hSome, Path.join, Text.closeWithSlash,
    if_neg (by simp [not_absolute_relative hBelow hSome, hText])]
  split
  · rename_i hSlash
    rw [if_pos (by simp [hSlash])]
  · rename_i hOpen
    rw [if_neg (by simp [hOpen, hText])]

end Place

end Files

end ModuleAtlas
