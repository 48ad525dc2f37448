import Mathlib.Data.List.Basic
import ModuleAtlas.Project.Basic

/-!
# Spellings of cleaned paths

Cleaning leaves a root, or none, and then only names and steps up. Such a component list is read
back from its shortest spelling, so cleaned paths with the same components are spelled alike: the
path order tells any two module identities apart.
-/

namespace ModuleAtlas

open Std

namespace Component

instance : TransOrd Component :=
  inferInstanceAs
    (TransCmp (compareLex (compareOn rank) (compareLex (compareOn bytes) (compareOn text))))

instance : LawfulEqOrd Component where
  eq_of_compare {a b} h := by
    obtain ⟨hRank, hName⟩ := compareLex_eq_eq.mp h
    obtain ⟨-, hText⟩ := compareLex_eq_eq.mp hName
    have hRank : a.rank = b.rank := LawfulEqOrd.eq_of_compare hRank
    have hText : a.text = b.text := LawfulEqOrd.eq_of_compare hText
    cases a <;> cases b <;> simp_all [rank, text]

/-- A step up, or a name that a piece between slashes can spell. -/
inductive Plain : Component → Prop
  | up : Plain .up
  | name {s : String} : '/' ∉ s.toList → s ≠ "" → s ≠ "." → s ≠ ".." → Plain (.name s)

namespace Plain

variable {part : Component} (h : part.Plain)

include h

theorem ofSegment : Path.ofSegment? part.text = some part := by
  cases h with
  | up => decide
  | name _ hEmpty hHere hUp => simp [text, Path.ofSegment?, hEmpty, hHere, hUp]

theorem slash_free : '/' ∉ part.text.toList := by
  cases h with
  | up => decide
  | name hSlash => exact hSlash

theorem text_ne_empty : part.text ≠ "" := by
  cases h with
  | up => decide
  | name _ hEmpty => exact hEmpty

theorem text_ne_here : part.text ≠ "." := by
  cases h with
  | up => decide
  | name _ _ hHere => exact hHere

end Plain

end Component

namespace Path

open Component (Plain)

/-! ## Pieces -/

theorem slash_free_of_mem_splitOn {cs piece : List Char} (h : piece ∈ cs.splitOn '/') :
    '/' ∉ piece := by
  induction cs generalizing piece with
  | nil =>
    simp only [List.splitOn_nil, List.mem_singleton] at h
    simp [h]
  | cons c cs ih =>
    rw [List.splitOn_cons_eq_if_modifyHead] at h
    split at h
    · rcases List.mem_cons.mp h with rfl | h
      · simp
      · exact ih h
    · rename_i hOther
      obtain ⟨first, rest, hSplit⟩ := List.exists_cons_of_ne_nil (List.splitOn_ne_nil '/' cs)
      rw [hSplit, List.modifyHead_cons] at h
      rcases List.mem_cons.mp h with rfl | h
      · have hFirst : '/' ∉ first := ih (by simp [hSplit])
        simp only [beq_iff_eq] at hOther
        simp [hFirst, Ne.symm hOther]
      · exact ih (by simp [hSplit, h])

theorem slash_free_of_mem_segments {p : Path} {s : String} (h : s ∈ p.segments) :
    '/' ∉ s.toList := by
  obtain ⟨piece, hPiece, rfl⟩ := List.mem_map.mp h
  rw [String.toList_ofList]
  exact slash_free_of_mem_splitOn hPiece

theorem plain_of_mem_segments {p : Path} {part : Component}
    (h : part ∈ p.segments.filterMap ofSegment?) : part.Plain := by
  obtain ⟨s, hMem, hPart⟩ := List.mem_filterMap.mp h
  rw [ofSegment?] at hPart
  split at hPart
  · cases hPart
  · rename_i hNoise
    obtain ⟨hEmpty, hHere⟩ := not_or.mp hNoise
    split at hPart
    · cases hPart
      exact .up
    · rename_i hUp
      cases hPart
      exact .name (slash_free_of_mem_segments hMem) hEmpty hHere hUp

theorem segments_intercalate {pieces : List String} (hPieces : ∀ s ∈ pieces, '/' ∉ s.toList)
    (hSome : pieces ≠ []) : (Path.mk ("/".intercalate pieces)).segments = pieces := by
  have hSlash : "/".toList = ['/'] := rfl
  rw [segments, String.toList_intercalate, hSlash, List.splitOn_intercalate]
  · simp [List.map_map, Function.comp_def]
  · simpa using hPieces
  · simpa using hSome

theorem segments_slash (s : String) : (Path.mk ("/" ++ s)).segments = "" :: (Path.mk s).segments := by
  simp [segments, List.splitOn_cons_eq_if_modifyHead]

theorem segments_absolute {p : Path} (h : p.isAbsolute = true) : p.segments.head? = some "" := by
  rw [isAbsolute, beq_iff_eq, List.head?_eq_some_iff] at h
  obtain ⟨cs, hText⟩ := h
  rw [segments, hText, List.splitOn_cons_eq_if_modifyHead]
  simp

theorem filterMap_ofSegment {parts : List Component} (hParts : ∀ part ∈ parts, part.Plain) :
    (parts.map Component.text).filterMap ofSegment? = parts := by
  induction parts with
  | nil => rfl
  | cons part parts ih =>
    have hFirst := (hParts part (.head _)).ofSegment
    simp [hFirst, ih fun part hMem => hParts part (.tail _ hMem)]

/-! ## Cleaned component lists -/

/-- At most a root, and then only plain components. -/
inductive Settled : List Component → Prop
  | relative {parts : List Component} : (∀ part ∈ parts, part.Plain) → Settled parts
  | absolute {parts : List Component} : (∀ part ∈ parts, part.Plain) → Settled (.root :: parts)

theorem components_ofComponents {parts : List Component} (h : Settled parts) (hSome : parts ≠ []) :
    (ofComponents parts).components = parts := by
  cases h with
  | absolute hPlain =>
    rename_i parts
    have hInner : (Path.mk ("/".intercalate (parts.map Component.text))).segments.filterMap
        ofSegment? = parts := by
      cases parts with
      | nil => decide
      | cons part parts =>
        rw [segments_intercalate]
        · exact filterMap_ofSegment hPlain
        · simpa using fun part hMem => (hPlain part hMem).slash_free
        · simp
    have hAbsolute : (ofComponents (.root :: parts)).isAbsolute = true := by
      simp [ofComponents, isAbsolute]
    rw [components, if_pos hAbsolute, ofComponents, segments_slash]
    simp [ofSegment?, hInner]
  | relative hPlain =>
    cases parts with
    | nil => exact (hSome rfl).elim
    | cons part parts =>
      have hFirst := hPlain part (.head _)
      have hSpelled : ofComponents (part :: parts) =
          ⟨"/".intercalate ((part :: parts).map Component.text)⟩ := by
        cases hFirst <;> rfl
      have hSegments : (ofComponents (part :: parts)).segments =
          (part :: parts).map Component.text := by
        rw [hSpelled, segments_intercalate]
        · simpa using fun part hMem => (hPlain part hMem).slash_free
        · simp
      -- A slash or a `.` at the front would be read as a component of its own.
      have hRelative : (ofComponents (part :: parts)).isAbsolute ≠ true := by
        intro hAbsolute
        have hHead := segments_absolute hAbsolute
        rw [hSegments] at hHead
        exact hFirst.text_ne_empty (Option.some.inj hHead)
      have hNamed : (ofComponents (part :: parts)).segments.head? ≠ some "." := by
        rw [hSegments]
        intro hHere
        exact hFirst.text_ne_here (Option.some.inj hHere)
      rw [components, if_neg hRelative, if_neg hNamed, hSegments]
      exact filterMap_ofSegment hPlain

/-- What cleaning holds so far, the last component first. -/
inductive Stacked : List Component → Prop
  | nil : Stacked []
  | root : Stacked [.root]
  | cons {part : Component} {done : List Component} :
      part.Plain → Stacked done → Stacked (part :: done)

theorem Settled.append {parts : List Component} {part : Component} (h : Settled parts)
    (hPart : part.Plain) : Settled (parts ++ [part]) := by
  cases h with
  | relative hPlain =>
    apply Settled.relative
    simpa [or_imp, forall_and] using ⟨hPlain, hPart⟩
  | absolute hPlain =>
    apply Settled.absolute
    simpa [or_imp, forall_and] using ⟨hPlain, hPart⟩

theorem Stacked.settled {done : List Component} (h : Stacked done) : Settled done.reverse := by
  induction h with
  | nil => exact .relative (by simp)
  | root => exact .absolute (by simp)
  | cons hPart _ ih =>
    rw [List.reverse_cons]
    exact ih.append hPart

theorem Stacked.settle {done : List Component} {part : Component} (h : Stacked done)
    (hPart : part.Plain) : Stacked (settle done part) := by
  cases hPart with
  | name hSlash hEmpty hHere hUp => exact .cons (.name hSlash hEmpty hHere hUp) h
  | up =>
    cases h with
    | nil => exact .cons .up .nil
    | root => exact .root
    | cons hLast hDone =>
      cases hLast with
      | up => exact .cons .up (.cons .up hDone)
      | name => exact hDone

theorem Stacked.foldl {parts done : List Component} (h : Stacked done)
    (hParts : ∀ part ∈ parts, part.Plain) : Stacked (parts.foldl Path.settle done) := by
  induction parts generalizing done with
  | nil => exact h
  | cons part parts ih =>
    exact ih (h.settle (hParts part (.head _))) fun part hMem => hParts part (.tail _ hMem)

theorem settled_cleanComponents (p : Path) : Settled (cleanComponents p.components) := by
  have hInner : ∀ part ∈ p.segments.filterMap ofSegment?, part.Plain :=
    fun part => plain_of_mem_segments
  rw [cleanComponents, components]
  apply Stacked.settled
  split
  · exact Stacked.root.foldl hInner
  · split
    · rw [List.foldl_cons, Path.settle]
      exact Stacked.nil.foldl hInner
    · exact Stacked.nil.foldl hInner

theorem here_not_settled : ¬ Settled [.here] := by
  intro h
  cases h with
  | relative hPlain => cases hPlain .here (.head _)

theorem components_clean (p : Path) :
    p.clean.components =
      if cleanComponents p.components = [] then [.here] else cleanComponents p.components := by
  rw [clean]
  split
  · rename_i hNone
    rw [if_pos hNone]
    decide
  · rename_i hSome
    rw [if_neg hSome]
    exact components_ofComponents (settled_cleanComponents p) hSome

/-- Cleaned paths with the same components are spelled alike. -/
theorem clean_eq_of_components_eq {p q : Path} (h : p.clean.components = q.clean.components) :
    p.clean = q.clean := by
  have hSettled := settled_cleanComponents p
  have hSettled' := settled_cleanComponents q
  rw [components_clean, components_clean] at h
  split at h
  · rename_i hNone
    split at h
    · rename_i hNone'
      rw [clean, clean, hNone, hNone']
    · rw [← h] at hSettled'
      exact (here_not_settled hSettled').elim
  · split at h
    · rw [h] at hSettled
      exact (here_not_settled hSettled).elim
    · rw [clean, clean, h]

end Path

namespace ModuleId

instance : TransOrd ModuleId :=
  inferInstanceAs (TransCmp (compareOn fun m : ModuleId => m.path.components))

theorem ofPath_eq_of_compare {p q : Path} (h : compare (ofPath p) (ofPath q) = .eq) :
    ofPath p = ofPath q := by
  have hComponents : p.clean.components = q.clean.components := LawfulEqOrd.eq_of_compare h
  rw [ofPath, ofPath, Path.clean_eq_of_components_eq hComponents]

end ModuleId

end ModuleAtlas
