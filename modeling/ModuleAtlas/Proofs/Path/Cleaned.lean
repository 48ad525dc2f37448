import Mathlib.Data.List.Chain
import Mathlib.Data.List.Induction
import ModuleAtlas.Proofs.Path.Spelling

/-!
# Paths that cleaning leaves as they are

Cleaning changes the components of a path exactly if there is something to clean: a `.` before other
components, a step up behind the root or a name, or no component at all. So cleaning twice is
cleaning once.
-/

namespace ModuleAtlas

open Std

namespace Path

/-- Steps up stand only at the front, where a relative path has nothing to take back. -/
def StepsFirst (parts : List Component) : Prop := parts.IsChain fun a b => b = .up → a = .up

/-- A path whose components need no cleaning. -/
def IsClean (p : Path) : Prop :=
  p.components = [.here] ∨ p.components ≠ [] ∧ .here ∉ p.components ∧ StepsFirst p.components

theorem stepsFirst_reverse {done : List Component} :
    StepsFirst done.reverse ↔ done.IsChain fun a b => a = .up → b = .up := List.isChain_reverse

theorem settle_of_stepsFirst {part : Component} {done : List Component} (hHere : part ≠ .here)
    (h : StepsFirst (part :: done).reverse) : settle done part = part :: done := by
  rw [stepsFirst_reverse] at h
  cases part with
  | root | name => rfl
  | here => exact (hHere rfl).elim
  | up =>
    cases done with
    | nil => rfl
    | cons last done =>
      obtain rfl := (List.isChain_cons_cons.mp h).1 rfl
      rfl

theorem foldl_settle_of_stepsFirst {parts : List Component} (hHere : .here ∉ parts)
    (h : StepsFirst parts) : parts.foldl settle [] = parts.reverse := by
  induction parts using List.reverseRecOn with
  | nil => rfl
  | append_singleton parts part ih =>
    have hHereParts : .here ∉ parts := fun hMem => hHere (List.mem_append_left _ hMem)
    have hPart : part ≠ .here := by
      rintro rfl
      exact hHere (by simp)
    rw [List.foldl_append, ih hHereParts (List.isChain_append.mp h).1, List.reverse_append]
    exact settle_of_stepsFirst hPart (by simpa using h)

/-- What has been cleaned so far holds no `.`, and its steps up come first. -/
theorem settle_keeps {done : List Component} (part : Component) (hHere : .here ∉ done)
    (h : StepsFirst done.reverse) :
    .here ∉ settle done part ∧ StepsFirst (settle done part).reverse := by
  rw [stepsFirst_reverse] at h ⊢
  cases part with
  | here => exact ⟨hHere, h⟩
  | root | name =>
    exact ⟨List.not_mem_cons_of_ne_of_not_mem nofun hHere, List.isChain_cons.mpr ⟨nofun, h⟩⟩
  | up =>
    cases done with
    | nil => exact ⟨by decide, .singleton _⟩
    | cons last done =>
      cases last with
      | root => exact ⟨hHere, h⟩
      | name => exact ⟨fun hMem => hHere (.tail _ hMem), h.tail⟩
      | up =>
        exact ⟨List.not_mem_cons_of_ne_of_not_mem nofun hHere,
          List.isChain_cons_cons.mpr ⟨fun _ => rfl, h⟩⟩
      | here => exact (hHere (.head _)).elim

theorem cleanComponents_keeps (parts : List Component) :
    .here ∉ cleanComponents parts ∧ StepsFirst (cleanComponents parts) := by
  rw [cleanComponents, List.mem_reverse]
  induction parts using List.reverseRecOn with
  | nil => exact ⟨List.not_mem_nil, .nil⟩
  | append_singleton parts part ih =>
    rw [List.foldl_append]
    exact settle_keeps part ih.1 ih.2

theorem isClean_clean (p : Path) : p.clean.IsClean := by
  rw [IsClean, components_clean]
  split
  · exact .inl rfl
  · rename_i hSome
    exact .inr ⟨hSome, cleanComponents_keeps p.components⟩

theorem components_clean_eq_iff (p : Path) : p.clean.components = p.components ↔ p.IsClean := by
  constructor
  · intro hSame
    rw [IsClean, ← hSame]
    exact p.isClean_clean
  · intro h
    rw [components_clean]
    rcases h with hHere | ⟨hSome, hHere, hSteps⟩
    · rw [hHere]
      rfl
    · have hKept : cleanComponents p.components = p.components := by
        rw [cleanComponents, foldl_settle_of_stepsFirst hHere hSteps, List.reverse_reverse]
      rw [hKept, if_neg hSome]

theorem clean_clean (p : Path) : p.clean.clean = p.clean :=
  clean_eq_of_components_eq ((components_clean_eq_iff p.clean).mpr p.isClean_clean)

end Path

end ModuleAtlas
