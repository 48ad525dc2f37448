import Mathlib.Data.List.DropRight
import ModuleAtlas.Files.Change
import ModuleAtlas.Proofs.Path.Join

/-!
# Parents of paths

A path is taken apart into a mark at its front and pieces, and put together again without changing
its components. Its parent has all of them but the last, so every path on the way up from the parent
is a proper front part of the path.
-/

namespace ModuleAtlas.Path

/-- A path whose components are a front part of those of another, without the last at least. -/
def IsAbove (q p : Path) : Prop :=
  q.components <+: p.components ∧ q.components ≠ p.components

/-! ## Pieces without noise at the end -/

theorem filterMap_trim (pieces : List String) :
    (pieces.rdropWhile fun s => s = "" || s = ".").filterMap ofSegment? =
      pieces.filterMap ofSegment? := by
  induction pieces using List.reverseRecOn with
  | nil => rfl
  | append_singleton pieces s ih =>
    by_cases hNoise : s = "" ∨ s = "."
    · have hNone : ofSegment? s = none := if_pos hNoise
      rw [List.rdropWhile_concat_pos _ _ _ (by simpa using hNoise), ih, List.filterMap_append,
        List.filterMap_cons_none hNone, List.filterMap_nil, List.append_nil]
    · rw [List.rdropWhile_concat_neg _ _ _ (by simpa using hNoise)]

/-- What is left ends in a piece that stands for a component. -/
theorem exists_component_of_trim {pieces : List String}
    (h : pieces.rdropWhile (fun s => s = "" || s = ".") ≠ []) :
    ∃ front s part, pieces.rdropWhile (fun s => s = "" || s = ".") = front ++ [s] ∧
      ofSegment? s = some part := by
  have hLast := List.rdropWhile_last_not (fun s => s = "" || s = ".") pieces h
  have hSome : ∀ s : String, ¬ (s = "" ∨ s = ".") → ∃ part, ofSegment? s = some part := by
    intro s hs
    rw [ofSegment?, if_neg hs]
    split
    · exact ⟨_, rfl⟩
    · exact ⟨_, rfl⟩
  obtain ⟨part, hPart⟩ := hSome _ (by simpa using hLast)
  exact ⟨_, _, part, (List.dropLast_append_getLast h).symm, hPart⟩

/-! ## Taking apart and putting together -/

/-- The component that the mark at the front stands for, if there is a mark. -/
def markOf : Option String → List Component
  | none => []
  | some s => if s = "" then [.root] else [.here]

/-- A mark and pieces that are read back as they stand. -/
structure Readable (parts : Option String × List String) : Prop where
  mark : parts.1 = none ∨ parts.1 = some "" ∨ parts.1 = some "."
  slash_free : ∀ s ∈ parts.2, '/' ∉ s.toList
  front : parts.1 = none → ∀ s ∈ parts.2.head?, s ≠ "" ∧ s ≠ "."

theorem trimmed_eq (p : Path) :
    p.trimmed =
      if p.isAbsolute then (some "", p.segments.tail.rdropWhile fun s => s = "" || s = ".")
      else if p.segments.head? = some "." then
        (some ".", p.segments.tail.rdropWhile fun s => s = "" || s = ".")
      else (none, p.segments.rdropWhile fun s => s = "" || s = ".") := rfl

theorem absolute_or_empty {p : Path} (h : p.segments.head? = some "") :
    p.isAbsolute = true ∨ p.segments = [""] := by
  rw [isAbsolute, segments] at *
  cases hText : p.text.toList with
  | nil => exact .inr (by simp)
  | cons c cs =>
    obtain ⟨first, rest, hSplit⟩ := List.exists_cons_of_ne_nil (List.splitOn_ne_nil '/' cs)
    rw [hText, List.splitOn_cons_eq_if_modifyHead, hSplit] at h
    left
    by_contra hRelative
    have hOther : ¬ (c == '/') = true := by simpa using hRelative
    rw [if_neg hOther] at h
    simp at h

theorem Readable.of_trimmed (p : Path) : Readable p.trimmed := by
  have hFree : ∀ s ∈ p.segments, '/' ∉ s.toList := fun s => slash_free_of_mem_segments
  have hKept : ∀ {pieces : List String} {s : String},
      s ∈ pieces.rdropWhile (fun s => s = "" || s = ".") → s ∈ pieces :=
    fun hs => (List.rdropWhile_prefix _ _).subset hs
  rw [trimmed_eq]
  split
  · exact ⟨.inr (.inl rfl), fun s hs => hFree s (List.mem_of_mem_tail (hKept hs)), nofun⟩
  · rename_i hRelative
    split
    · exact ⟨.inr (.inr rfl), fun s hs => hFree s (List.mem_of_mem_tail (hKept hs)), nofun⟩
    · rename_i hHere
      refine ⟨.inl rfl, fun s hs => hFree s (hKept hs), fun _ s hs => ?_⟩
      have hHead : p.segments.head? = some s := by
        obtain ⟨tail, hTail⟩ := List.rdropWhile_prefix (fun s => s = "" || s = ".") p.segments
        rw [← hTail, List.head?_append, hs, Option.some_or]
      refine ⟨?_, ?_⟩
      · rintro rfl
        rcases absolute_or_empty hHead with hAbsolute | hEmpty
        · exact hRelative hAbsolute
        · rw [hEmpty] at hs
          cases hs
      · rintro rfl
        exact hHere hHead

theorem components_trimmed (p : Path) :
    p.components = markOf p.trimmed.1 ++ p.trimmed.2.filterMap ofSegment? := by
  obtain ⟨first, rest, hSegments⟩ := List.exists_cons_of_ne_nil (segments_ne_nil p)
  rw [components_eq, inner, trimmed_eq, hSegments]
  split
  · rename_i hAbsolute
    have hFirst := segments_absolute hAbsolute
    rw [hSegments] at hFirst
    cases hFirst
    rw [List.filterMap_cons_none rfl]
    exact congrArg _ (filterMap_trim rest).symm
  · split
    · rename_i hHere
      cases hHere
      rw [List.filterMap_cons_none rfl]
      exact congrArg _ (filterMap_trim rest).symm
    · exact (filterMap_trim _).symm

theorem inner_intercalate {pieces : List String} (hFree : ∀ s ∈ pieces, '/' ∉ s.toList) :
    (Path.mk ("/".intercalate pieces)).inner = pieces.filterMap ofSegment? := by
  by_cases hNone : pieces = []
  · subst hNone
    decide
  · rw [inner, segments_intercalate hFree hNone]

theorem Readable.components {parts : Option String × List String} (h : Readable parts) :
    (ofTrimmed parts).components = markOf parts.1 ++ parts.2.filterMap ofSegment? := by
  obtain ⟨mark, pieces⟩ := parts
  obtain ⟨hMark, hFree, hFront⟩ := h
  dsimp only at hMark hFree hFront ⊢
  rcases hMark with rfl | rfl | rfl
  · have hSpelled : ofTrimmed (none, pieces) = ⟨"/".intercalate pieces⟩ := rfl
    by_cases hNone : pieces = []
    · subst hNone
      decide
    · have hSegments := segments_intercalate hFree hNone
      obtain ⟨s, hHead⟩ := Option.isSome_iff_exists.mp (List.isSome_head?.mpr hNone)
      obtain ⟨hEmpty, hHere⟩ := hFront rfl s hHead
      have hRelative : ¬ (Path.mk ("/".intercalate pieces)).isAbsolute = true := by
        intro hAbsolute
        have hFirst := segments_absolute hAbsolute
        rw [hSegments, hHead] at hFirst
        exact hEmpty (Option.some.inj hFirst)
      have hNamed : ¬ (Path.mk ("/".intercalate pieces)).segments.head? = some "." := by
        rw [hSegments, hHead]
        exact fun hFirst => hHere (Option.some.inj hFirst)
      rw [hSpelled, components_eq, if_neg hRelative, if_neg hNamed, inner_intercalate hFree]
      rfl
  · have hSpelled : ofTrimmed (some "", pieces) = ⟨"" ++ "/" ++ "/".intercalate pieces⟩ := rfl
    rw [hSpelled, components_append_slash, if_pos rfl, inner_intercalate hFree]
    rfl
  · by_cases hNone : pieces = []
    · subst hNone
      decide
    · have hSpelled : ofTrimmed (some ".", pieces) = ⟨"." ++ "/" ++ "/".intercalate pieces⟩ := by
        change Path.mk ("/".intercalate ("." :: pieces)) = _
        rw [String.intercalate_cons_of_ne_nil hNone]
      rw [hSpelled, components_append_slash, if_neg (by decide), inner_intercalate hFree]
      rfl

/-! ## Parents -/

theorem Readable.dropLast {mark : Option String} {pieces : List String}
    (h : Readable (mark, pieces)) : Readable (mark, pieces.dropLast) where
  mark := h.mark
  slash_free s hs := h.slash_free s (List.dropLast_subset _ hs)
  front hMark s hs := by
    obtain ⟨tail, hTail⟩ := List.dropLast_prefix pieces
    apply h.front hMark
    dsimp only at hs ⊢
    rw [Option.mem_def] at hs ⊢
    rw [← hTail, List.head?_append, hs, Option.some_or]

theorem components_ofTrimmed_trimmed (p : Path) :
    (ofTrimmed p.trimmed).components = p.components := by
  rw [(Readable.of_trimmed p).components, ← components_trimmed]

theorem trimmed_pieces (p : Path) :
    p.trimmed.2 = [] ∨ ∃ front s part, p.trimmed.2 = front ++ [s] ∧ ofSegment? s = some part := by
  rw [or_iff_not_imp_left]
  intro hSome
  rw [trimmed_eq] at hSome ⊢
  split at hSome
  · rename_i hAbsolute
    rw [if_pos hAbsolute]
    exact exists_component_of_trim hSome
  · rename_i hRelative
    rw [if_neg hRelative]
    split at hSome
    · rename_i hHere
      rw [if_pos hHere]
      exact exists_component_of_trim hSome
    · rename_i hNamed
      rw [if_neg hNamed]
      exact exists_component_of_trim hSome

/-- The parent has all components of a path but the last. -/
theorem components_parent {p q : Path} (h : p.parent? = some q) :
    p.components ≠ [] ∧ q.components = p.components.dropLast := by
  have hReadable := Readable.of_trimmed p
  have hPieces := trimmed_pieces p
  rw [components_trimmed p]
  rw [parent?] at h
  rcases hTrimmed : p.trimmed with ⟨mark, pieces⟩
  rw [hTrimmed] at h hReadable hPieces
  dsimp only at h hPieces ⊢
  rcases hPieces with rfl | ⟨front, s, part, rfl, hPart⟩
  · -- Only a lone dot has a parent without a piece, the empty path.
    dsimp only at h
    split at h
    · rename_i hHere
      cases h
      subst hHere
      decide
    · cases h
  · have hParent : q = ofTrimmed (ofTrimmed (mark, front)).trimmed := by
      cases front with
      | nil => exact (Option.some.inj h).symm
      | cons first rest =>
        have hDrop : (first :: rest ++ [s]).dropLast = first :: rest := List.dropLast_concat
        rw [← hDrop]
        exact (Option.some.inj h).symm
    have hFront := hReadable.dropLast
    rw [List.dropLast_concat] at hFront
    rw [hParent, components_ofTrimmed_trimmed, hFront.components, List.filterMap_append,
      List.filterMap_cons_some hPart, List.filterMap_nil, ← List.append_assoc,
      List.dropLast_concat]
    exact ⟨by simp, rfl⟩

theorem components_of_mem_chain {fuel : Nat} {p q : Path} (h : q ∈ chain fuel p) :
    q.components <+: p.components := by
  induction fuel generalizing p with
  | zero => cases h
  | succ fuel ih =>
    rw [chain] at h
    rcases List.mem_cons.mp h with rfl | hAbove
    · exact List.prefix_rfl
    · cases hParent : p.parent? with
      | none =>
        rw [hParent] at hAbove
        cases hAbove
      | some parent =>
        rw [hParent] at hAbove
        have hChain := ih hAbove
        rw [(components_parent hParent).2] at hChain
        exact hChain.trans (List.dropLast_prefix _)

/-- Every path on the way up from the parent lies above the path. -/
theorem isAbove_of_mem_ancestors {p parent q : Path} (hParent : p.parent? = some parent)
    (h : q ∈ parent.ancestors) : q.IsAbove p := by
  obtain ⟨hSome, hParentComponents⟩ := components_parent hParent
  have hFront := components_of_mem_chain h
  rw [hParentComponents] at hFront
  refine ⟨hFront.trans (List.dropLast_prefix _), fun hSame => ?_⟩
  have hLength := hFront.length_le
  rw [hSame, List.length_dropLast] at hLength
  have hPositive := List.length_pos_of_ne_nil hSome
  omega

end ModuleAtlas.Path
