/-!
# Sorted lists

A finite set shown to the user is a strictly increasing list: sorted, then freed of repetitions,
which stand side by side once the list is sorted. Searching such a list halves it step by step.
-/

namespace ModuleAtlas

def sortedDistinct {α : Type} [Ord α] [BEq α] (xs : List α) : List α :=
  (xs.mergeSort fun a b => (compare a b).isLE).eraseReps

/-- Halving search: the position of an element that compares equal, where `order` says how an
element compares with the one sought. The search narrows to one position before it looks there. -/
def searchHalving {α : Type} (order : α → Ordering) (xs : Array α) : Option Nat :=
  if xs.isEmpty then none else
  let i := narrow xs.size 0 xs.size
  match xs[i]? with
  | some x => if order x = .eq then some i else none
  | none => none
where
  /-- The last position in a range of `size` elements from `start` that does not compare greater. -/
  narrow : Nat → Nat → Nat → Nat
    | 0, start, _ => start
    | fuel + 1, start, size =>
      if size ≤ 1 then start
      else
        let half := size / 2
        let middle := start + half
        match xs[middle]? with
        | some x => narrow fuel (if order x = .gt then start else middle) (size - half)
        | none => start

end ModuleAtlas
