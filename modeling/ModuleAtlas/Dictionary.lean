/-!
# Dictionaries

A dictionary maps texts to values. Its entries have strictly increasing keys, so equal contents are
equal values.
-/

namespace ModuleAtlas

structure Dictionary (β : Type) where
  entries : List (String × β)
  increasing : entries.Pairwise fun a b => a.1 < b.1
deriving DecidableEq

namespace Dictionary

variable {β : Type}

def empty : Dictionary β := ⟨[], .nil⟩

/-- Puts an entry at its place in an increasing list, over an entry with the same key. -/
def insertEntry (key : String) (value : β) : List (String × β) → List (String × β)
  | [] => [(key, value)]
  | (k, v) :: rest =>
    if key < k then (key, value) :: (k, v) :: rest
    else if key = k then (key, value) :: rest
    else (k, v) :: insertEntry key value rest

theorem mem_insertEntry {key : String} {value : β} {entries : List (String × β)}
    {e : String × β} (h : e ∈ insertEntry key value entries) : e = (key, value) ∨ e ∈ entries := by
  induction entries with
  | nil => simpa [insertEntry] using h
  | cons entry rest ih =>
    obtain ⟨k, v⟩ := entry
    rw [insertEntry] at h
    split at h
    · simpa using h
    · split at h
      · rcases List.mem_cons.mp h with rfl | h
        · exact .inl rfl
        · exact .inr (.tail _ h)
      · rcases List.mem_cons.mp h with rfl | h
        · exact .inr (.head _)
        · exact (ih h).imp id (.tail _)

theorem increasing_insertEntry {key : String} {value : β} {entries : List (String × β)}
    (h : entries.Pairwise fun a b => a.1 < b.1) :
    (insertEntry key value entries).Pairwise fun a b => a.1 < b.1 := by
  induction entries with
  | nil => simp [insertEntry]
  | cons entry rest ih =>
    obtain ⟨k, v⟩ := entry
    obtain ⟨first, others⟩ := List.pairwise_cons.mp h
    rw [insertEntry]
    split
    · next less =>
      refine List.pairwise_cons.mpr ⟨fun e he => ?_, h⟩
      rcases List.mem_cons.mp he with rfl | he
      · exact less
      · exact String.lt_trans less (first e he)
    · split
      · next same => exact List.pairwise_cons.mpr ⟨fun e he => same ▸ first e he, others⟩
      · next notLess notSame =>
        refine List.pairwise_cons.mpr ⟨fun e he => ?_, ih others⟩
        rcases mem_insertEntry he with rfl | he
        · exact Decidable.byContradiction fun notGreater =>
            notSame (String.le_antisymm (String.not_lt.mp notGreater) (String.not_lt.mp notLess))
        · exact first e he

/-- Adds an entry; one with the same key is replaced. -/
def insert (d : Dictionary β) (key : String) (value : β) : Dictionary β :=
  ⟨insertEntry key value d.entries, increasing_insertEntry d.increasing⟩

def get? (d : Dictionary β) (key : String) : Option β := d.entries.lookup key

/-- Adds entries from left to right, so the last one for a key counts. -/
def insertAll (d : Dictionary β) (entries : List (String × β)) : Dictionary β :=
  entries.foldl (fun d e => d.insert e.1 e.2) d

def ofList (entries : List (String × β)) : Dictionary β := empty.insertAll entries

end Dictionary

end ModuleAtlas
