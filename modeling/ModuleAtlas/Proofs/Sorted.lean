import Mathlib.Data.List.Sort
import ModuleAtlas.Sorted

/-!
# Strictly increasing lists

Sorting without repetition keeps the members of a list and puts them into strictly increasing
order, and a strictly increasing list is fixed by its members. The order only has to tell apart
the elements that the list holds: two paths may compare equal and still be spelled differently.
-/

namespace ModuleAtlas

open Std

variable {α : Type}

/-- Each element compares less than every later one. -/
def Increasing [Ord α] (xs : List α) : Prop := xs.Pairwise fun a b => compare a b = .lt

instance [Ord α] (xs : List α) : Decidable (Increasing xs) :=
  inferInstanceAs (Decidable (xs.Pairwise fun a b => compare a b = .lt))

theorem Increasing.eq_of_mem_iff [Ord α] [TransOrd α] {xs ys : List α}
    (hxs : Increasing xs) (hys : Increasing ys) (hMem : ∀ a, a ∈ xs ↔ a ∈ ys) : xs = ys := by
  have : Std.Irrefl fun a b : α => compare a b = .lt := ⟨fun a h => by simp at h⟩
  have : Std.Antisymm fun a b : α => compare a b = .lt :=
    ⟨fun a b h h' => by simp [OrientedOrd.eq_swap (a := a), h'] at h⟩
  exact List.Pairwise.eq_of_mem_iff hxs hys hMem

theorem Increasing.nodup [Ord α] [TransOrd α] {xs : List α} (h : Increasing xs) : xs.Nodup := by
  apply List.Pairwise.imp _ h
  rintro a b hLess rfl
  simp at hLess

/-! ## Erasing repetitions -/

theorem eraseReps_loop [BEq α] (a : α) (xs acc : List α) :
    List.eraseRepsBy.loop (· == ·) a xs acc = acc.reverse ++ (a :: xs).eraseReps := by
  induction xs generalizing a acc with
  | nil => simp [List.eraseReps, List.eraseRepsBy, List.eraseRepsBy.loop]
  | cons b xs ih =>
    simp only [List.eraseReps, List.eraseRepsBy, List.eraseRepsBy.loop]
    cases a == b with
    | true => rw [ih a acc, ih a []]; simp
    | false => rw [ih b (a :: acc), ih b [a]]; simp

theorem eraseReps_cons_cons [BEq α] (a b : α) (xs : List α) :
    (a :: b :: xs).eraseReps = if a == b then (a :: xs).eraseReps else a :: (b :: xs).eraseReps := by
  change List.eraseRepsBy.loop (· == ·) a (b :: xs) [] = _
  rw [List.eraseRepsBy.loop]
  cases a == b <;> simp [eraseReps_loop]

variable [BEq α] [LawfulBEq α]

theorem mem_eraseReps_cons {x a : α} {xs : List α} :
    x ∈ (a :: xs).eraseReps ↔ x = a ∨ x ∈ xs := by
  induction xs generalizing a with
  | nil => simp [List.eraseReps, List.eraseRepsBy, List.eraseRepsBy.loop]
  | cons b xs ih =>
    rw [eraseReps_cons_cons]
    split
    · rename_i hSame
      obtain rfl : a = b := by simpa using hSame
      simp [ih]
    · simp [ih]

theorem mem_eraseReps {x : α} {xs : List α} : x ∈ xs.eraseReps ↔ x ∈ xs := by
  cases xs with
  | nil => simp [List.eraseReps, List.eraseRepsBy]
  | cons a xs => simp [mem_eraseReps_cons]

/-! ## Sorting -/

variable [Ord α]

theorem increasing_eraseReps [TransOrd α] {xs : List α}
    (hSorted : xs.Pairwise fun a b => (compare a b).isLE)
    (hApart : ∀ a ∈ xs, ∀ b ∈ xs, compare a b = .eq → a = b) : Increasing xs.eraseReps := by
  induction xs with
  | nil => exact List.Pairwise.nil
  | cons a xs ih =>
    obtain ⟨hFirst, hRest⟩ := List.pairwise_cons.mp hSorted
    have hApartRest : ∀ x ∈ xs, ∀ y ∈ xs, compare x y = .eq → x = y :=
      fun x hx y hy => hApart x (.tail _ hx) y (.tail _ hy)
    cases xs with
    | nil => simp [Increasing, List.eraseReps, List.eraseRepsBy, List.eraseRepsBy.loop]
    | cons b xs =>
      rw [eraseReps_cons_cons]
      split
      · rename_i hSame
        obtain rfl : a = b := by simpa using hSame
        exact ih hRest hApartRest
      · rename_i hDiffer
        refine List.pairwise_cons.mpr ⟨fun x hx => ?_, ih hRest hApartRest⟩
        have hx : x ∈ b :: xs := mem_eraseReps.mp hx
        have hLess : compare a b = .lt := by
          cases hOrder : compare a b with
          | lt => rfl
          | eq =>
            have := hApart a (by simp) b (by simp) hOrder
            simp [this] at hDiffer
          | gt => simpa [hOrder] using hFirst b (by simp)
        -- Whatever follows `b` lies above it, and `b` lies above `a`.
        rcases List.mem_cons.mp hx with rfl | hx
        · exact hLess
        · exact TransCmp.lt_of_lt_of_isLE hLess (List.rel_of_pairwise_cons hRest hx)

theorem mem_sortedDistinct {x : α} {xs : List α} : x ∈ sortedDistinct xs ↔ x ∈ xs := by
  rw [sortedDistinct, mem_eraseReps, List.mem_mergeSort]

theorem increasing_sortedDistinct_of_apart [TransOrd α] {xs : List α}
    (hApart : ∀ a ∈ xs, ∀ b ∈ xs, compare a b = .eq → a = b) : Increasing (sortedDistinct xs) := by
  apply increasing_eraseReps
  · apply List.pairwise_mergeSort
    · exact fun a b c hab hbc => TransOrd.isLE_trans hab hbc
    · intro a b
      rw [OrientedOrd.eq_swap (a := b)]
      cases compare a b <;> simp
  · intro a ha b hb
    exact hApart a (List.mem_mergeSort.mp ha) b (List.mem_mergeSort.mp hb)

theorem increasing_sortedDistinct [TransOrd α] [LawfulEqOrd α] (xs : List α) :
    Increasing (sortedDistinct xs) :=
  increasing_sortedDistinct_of_apart fun _ _ _ _ h => LawfulEqOrd.eq_of_compare h

/-- Neither the order nor the repetitions of a list show in its sorted form. -/
theorem sortedDistinct_eq_of_mem_iff [TransOrd α] {xs ys : List α}
    (hApart : ∀ a ∈ xs, ∀ b ∈ xs, compare a b = .eq → a = b) (hMem : ∀ a, a ∈ xs ↔ a ∈ ys) :
    sortedDistinct xs = sortedDistinct ys := by
  apply (increasing_sortedDistinct_of_apart hApart).eq_of_mem_iff
  · apply increasing_sortedDistinct_of_apart
    exact fun a ha b hb => hApart a ((hMem a).mpr ha) b ((hMem b).mpr hb)
  · intro a
    rw [mem_sortedDistinct, mem_sortedDistinct, hMem]

end ModuleAtlas
