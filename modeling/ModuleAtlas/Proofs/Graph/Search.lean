import ModuleAtlas.Proofs.Graph.Normal

/-!
# Searching by halving

In a strictly increasing list a search by halving finds each element at its place. The range that
is still searched always holds the place sought, and there is fuel for each time it is halved.
-/

namespace ModuleAtlas

open Std

/-- Whatever is found stands where it is found, in any list. -/
theorem getElem?_of_searchHalving {α : Type} [Ord α] [LawfulEqOrd α] {xs : List α} {x : α} {i : Nat}
    (hFound : searchHalving (compare · x) xs.toArray = some i) : xs[i]? = some x := by
  rw [searchHalving] at hFound
  split at hFound
  · cases hFound
  · dsimp only at hFound
    split at hFound
    · rename_i y hy
      split at hFound
      · rename_i hSame
        obtain rfl := LawfulEqOrd.eq_of_compare hSame
        cases hFound
        simpa using hy
      · cases hFound
    · cases hFound

section

variable {α : Type} [Ord α] [TransOrd α]

/-- Elements of a strictly increasing list compare as their places do. -/
theorem Increasing.compare_eq {xs : List α} (hxs : Increasing xs) {i j : Nat} {a b : α}
    (hi : xs[i]? = some a) (hj : xs[j]? = some b) : compare a b = compare i j := by
  obtain ⟨hInside, rfl⟩ := List.getElem?_eq_some_iff.mp hi
  obtain ⟨hInside', rfl⟩ := List.getElem?_eq_some_iff.mp hj
  have hPlaces := List.pairwise_iff_getElem.mp hxs
  rcases Nat.lt_trichotomy i j with hLess | rfl | hGreater
  · rw [hPlaces i j hInside hInside' hLess, Nat.compare_eq_lt.mpr hLess]
  · rw [ReflOrd.compare_self, ReflOrd.compare_self]
  · rw [OrientedOrd.eq_swap, hPlaces j i hInside' hInside hGreater, Nat.compare_eq_gt.mpr hGreater]
    rfl

theorem narrow_eq {xs : List α} (hxs : Increasing xs) {x : α} {k : Nat} (hk : xs[k]? = some x)
    {fuel start size : Nat} (hStart : start ≤ k) (hEnd : k < start + size)
    (hInside : start + size ≤ xs.length) (hFuel : size ≤ fuel + 1) :
    searchHalving.narrow (compare · x) xs.toArray fuel start size = k := by
  induction fuel generalizing start size with
  | zero =>
    rw [searchHalving.narrow]
    omega
  | succ fuel ih =>
    rw [searchHalving.narrow]
    split
    · omega
    · have hMiddle : start + size / 2 < xs.length := by omega
      simp only [List.getElem?_toArray, List.getElem?_eq_getElem hMiddle]
      have hOrder := hxs.compare_eq (List.getElem?_eq_getElem hMiddle) hk
      split
      · rename_i hGreater
        have hBefore : k < start + size / 2 := by
          rwa [hOrder, Nat.compare_eq_gt] at hGreater
        exact ih hStart (by omega) (by omega) (by omega)
      · rename_i hNotGreater
        have hAfter : start + size / 2 ≤ k := by
          rw [hOrder, Nat.compare_eq_gt] at hNotGreater
          omega
        exact ih hAfter (by omega) (by omega) (by omega)

theorem searchHalving_eq_some_iff [LawfulEqOrd α] {xs : List α} (hxs : Increasing xs) {x : α}
    {i : Nat} : searchHalving (compare · x) xs.toArray = some i ↔ xs[i]? = some x := by
  constructor
  · exact getElem?_of_searchHalving
  · intro hi
    obtain ⟨hInside, -⟩ := List.getElem?_eq_some_iff.mp hi
    have hNarrow :
        searchHalving.narrow (compare · x) xs.toArray xs.toArray.size 0 xs.toArray.size = i := by
      rw [List.size_toArray]
      exact narrow_eq hxs hi (Nat.zero_le i) (by omega) (by omega) (by omega)
    have hNotEmpty : ¬ xs.toArray.isEmpty = true := by
      rw [List.isEmpty_toArray, List.isEmpty_iff_length_eq_zero]
      omega
    rw [searchHalving, if_neg hNotEmpty]
    simp only [hNarrow, List.getElem?_toArray, hi, ReflOrd.compare_self, if_true]

end

namespace Graph

theorem Normal.position?_eq_some_iff {g : Graph} (hg : g.Normal) {l : String} {i : Nat} :
    g.position? l = some i ↔ g.nodes[i]? = some l :=
  searchHalving_eq_some_iff hg.nodes_increasing

end Graph

end ModuleAtlas
