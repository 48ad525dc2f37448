import Mathlib.Data.List.Basic
import ModuleAtlas.Dictionary

/-!
# Looking up in dictionaries

A dictionary holds an entry exactly if looking up its key gives its value. Adding entries with
distinct keys puts them over the entries that were there.
-/

namespace ModuleAtlas.Dictionary

variable {β : Type} {key : String} {value : β}

theorem lookup_cons_eq {α : Type} [BEq α] [LawfulBEq α] [DecidableEq α] (key : α) (value : β)
    (rest : List (α × β)) (other : α) :
    ((key, value) :: rest).lookup other = if other = key then some value else rest.lookup other := by
  rw [List.lookup_cons]
  by_cases h : other = key
  · simp [h]
  · have hBool : (other == key) = false := by simpa using h
    rw [hBool, if_neg h]

theorem lookup_insertEntry (key : String) (value : β) (entries : List (String × β))
    (other : String) :
    (insertEntry key value entries).lookup other =
      if other = key then some value else entries.lookup other := by
  induction entries with
  | nil => exact lookup_cons_eq key value [] other
  | cons entry rest ih =>
    obtain ⟨k, v⟩ := entry
    rw [insertEntry]
    split
    · exact lookup_cons_eq key value _ other
    · split
      · rename_i hSame
        subst hSame
        rw [lookup_cons_eq, lookup_cons_eq]
        split
        · rfl
        · rfl
      · rename_i hOther
        rw [lookup_cons_eq, lookup_cons_eq, ih]
        by_cases h : other = k
        · subst h
          rw [if_pos rfl, if_pos rfl, if_neg (Ne.symm hOther)]
        · rw [if_neg h, if_neg h]

theorem get?_insert (d : Dictionary β) (key : String) (value : β) (other : String) :
    (d.insert key value).get? other = if other = key then some value else d.get? other :=
  lookup_insertEntry key value d.entries other

theorem get?_empty (key : String) : (empty : Dictionary β).get? key = none := rfl

theorem lookup_eq_some_of_mem {entries : List (String × β)}
    (hDistinct : (entries.map Prod.fst).Nodup) (h : (key, value) ∈ entries) :
    entries.lookup key = some value := by
  induction entries with
  | nil => cases h
  | cons entry rest ih =>
    obtain ⟨k, v⟩ := entry
    rw [List.map_cons, List.nodup_cons] at hDistinct
    obtain ⟨hNew, hDistinct⟩ := hDistinct
    rw [lookup_cons_eq]
    rcases List.mem_cons.mp h with hFirst | hRest
    · cases hFirst
      rw [if_pos rfl]
    · have hOther : key ≠ k := by
        rintro rfl
        exact hNew (List.mem_map.mpr ⟨_, hRest, rfl⟩)
      rw [if_neg hOther]
      exact ih hDistinct hRest

theorem nodup_keys (d : Dictionary β) : (d.entries.map Prod.fst).Nodup := by
  rw [List.Nodup, List.pairwise_map]
  apply d.increasing.imp
  intro a b hLess hSame
  rw [hSame] at hLess
  exact String.lt_irrefl _ hLess

theorem mem_entries_iff {d : Dictionary β} : (key, value) ∈ d.entries ↔ d.get? key = some value := by
  constructor
  · exact lookup_eq_some_of_mem d.nodup_keys
  · intro h
    obtain ⟨front, back, hEntries, -⟩ := List.lookup_eq_some_iff.mp h
    rw [hEntries]
    simp

theorem get?_eq_none_iff {d : Dictionary β} : d.get? key = none ↔ key ∉ d.entries.map Prod.fst := by
  rw [Option.eq_none_iff_forall_ne_some, List.mem_map]
  constructor
  · rintro h ⟨⟨k, v⟩, hMem, rfl⟩
    exact h v (mem_entries_iff.mp hMem)
  · intro h v hSome
    exact h ⟨_, mem_entries_iff.mpr hSome, rfl⟩

/-- Added entries with distinct keys come first, and what they do not name stays. -/
theorem get?_insertAll_iff {d : Dictionary β} {added : List (String × β)}
    (hDistinct : (added.map Prod.fst).Nodup) :
    (d.insertAll added).get? key = some value ↔
      (key, value) ∈ added ∨ key ∉ added.map Prod.fst ∧ d.get? key = some value := by
  induction added generalizing d with
  | nil => simp [insertAll]
  | cons entry added ih =>
    obtain ⟨k, v⟩ := entry
    rw [List.map_cons, List.nodup_cons] at hDistinct
    obtain ⟨hNew, hDistinct⟩ := hDistinct
    have hStep : d.insertAll ((k, v) :: added) = (d.insert k v).insertAll added := rfl
    rw [hStep, ih hDistinct, get?_insert]
    by_cases hKey : key = k
    · -- The keys are distinct, so nothing added later names this one again.
      subst hKey
      have hNot : (key, value) ∉ added := fun h => hNew (List.mem_map.mpr ⟨_, h, rfl⟩)
      rw [if_pos rfl]
      constructor
      · rintro (hMem | ⟨-, hValue⟩)
        · exact (hNot hMem).elim
        · cases hValue
          exact .inl (.head _)
      · rintro (hMem | ⟨hAbsent, -⟩)
        · rcases List.mem_cons.mp hMem with hFirst | hMem
          · cases hFirst
            exact .inr ⟨hNew, rfl⟩
          · exact (hNot hMem).elim
        · exact (hAbsent (by simp)).elim
    · simp [hKey]

theorem get?_ofList_iff {entries : List (String × β)} (hDistinct : (entries.map Prod.fst).Nodup) :
    (ofList entries).get? key = some value ↔ (key, value) ∈ entries := by
  rw [ofList, get?_insertAll_iff hDistinct, get?_empty]
  simp

/-- The entries of the second dictionary count where both have one. -/
theorem get?_union_iff {d e : Dictionary β} :
    (d.insertAll e.entries).get? key = some value ↔
      e.get? key = some value ∨ e.get? key = none ∧ d.get? key = some value := by
  rw [get?_insertAll_iff e.nodup_keys, mem_entries_iff, get?_eq_none_iff]

/-! ## Entries in order -/

end ModuleAtlas.Dictionary
