import ModuleAtlas.Files.Change
import ModuleAtlas.Proofs.Files.Below

/-!
# Lookups in a growing tree

A path that leads to an entry still leads there after the tree has grown. A path through directories
that comes to a missing name leads nowhere.
-/

namespace ModuleAtlas.Files

namespace FileTree

/-- Whether one tree holds every entry of another. -/
def Within (t t' : FileTree) : Prop := ∀ place e, t.get? place = some e → t'.get? place = some e

variable {t t' : FileTree} {last : Bool} {dir place : Place} {e : Entry} {asDirectory : Bool}

/-- What is taken stays taken; a name that was free may not stay free. -/
theorem follow_within (hWithin : t.Within t')
    {onLink onLink' : Place → Path → List String → Except Fault Destination}
    (hLink : ∀ dir target rest, onLink dir target rest = .ok ⟨.taken place e, asDirectory⟩ →
      onLink' dir target rest = .ok ⟨.taken place e, asDirectory⟩)
    {pieces : List String}
    (h : t.follow last onLink dir pieces = .ok ⟨.taken place e, asDirectory⟩) :
    t'.follow last onLink' dir pieces = .ok ⟨.taken place e, asDirectory⟩ := by
  fun_induction FileTree.follow t last onLink dir pieces with
  | case1 dir => simpa [follow] using h
  | case2 dir piece rest hStay ih => rw [follow, if_pos hStay, ih h]
  | case3 dir rest hStay ih => rw [follow, if_neg hStay, if_pos rfl, ih h]
  | case4 dir piece rest hStay hUp hGet ih =>
    rw [follow, if_neg hStay, if_neg hUp, hWithin _ _ hGet]
    exact ih h
  | case5 dir piece rest hStay hUp atEnd target hGet hStop =>
    rw [follow, if_neg hStay, if_neg hUp, hWithin _ _ hGet]
    simpa [atEnd, hStop] using h
  | case6 dir piece rest hStay hUp atEnd target hGet hGoes =>
    rw [follow, if_neg hStay, if_neg hUp, hWithin _ _ hGet]
    simpa [atEnd, hGoes] using hLink _ _ _ h
  | case7 dir piece rest hStay hUp atEnd content hGet hEnd =>
    rw [follow, if_neg hStay, if_neg hUp, hWithin _ _ hGet]
    simpa [atEnd, hEnd] using h
  | case8 => cases h
  | case9 => cases h
  | case10 => cases h

theorem trace_within (hWithin : t.Within t') {links : Nat} {pieces : List String}
    (h : t.trace last links dir pieces = .ok ⟨.taken place e, asDirectory⟩) :
    t'.trace last links dir pieces = .ok ⟨.taken place e, asDirectory⟩ := by
  induction links generalizing dir pieces with
  | zero => exact follow_within hWithin (fun _ _ _ h => h) h
  | succ links ih => exact follow_within hWithin (fun _ _ _ h => ih h) h

variable {onLink : Place → Path → List String → Except Fault Destination}

theorem follow_down {names rest : List String}
    (h : t.get? (names.reverse ++ dir) = some .directory) :
    t.follow last onLink dir (names ++ rest)
      = t.follow last onLink (names.reverse ++ dir) rest := by
  induction names generalizing dir with
  | nil => rfl
  | cons name names ih =>
    rw [List.reverse_cons, List.append_assoc, List.singleton_append] at h ⊢
    have hDirectory : t.get? (name :: dir) = some .directory := by
      by_cases hLast : names = []
      · subst hLast
        exact h
      · exact directory_above (by simpa using hLast) h
    rw [List.cons_append, follow_directory (isName_of_get? h name (by simp)) hDirectory, ih h]

theorem follow_missing {name : String} (hName : IsName name) (h : t.get? (name :: dir) = none)
    (rest : List String) :
    t.follow last onLink dir (name :: rest) = .error .notFound ∨ ∃ asDirectory,
      t.follow last onLink dir (name :: rest) = .ok ⟨.free dir name, asDirectory⟩ := by
  obtain ⟨hEmpty, hHere, hUp, -⟩ := hName
  rw [follow, if_neg (by simp [hEmpty, hHere]), if_neg hUp, h]
  dsimp only
  split
  · exact .inr ⟨_, rfl⟩
  · exact .inl rfl

theorem mem_places (h : t.get? place = some e) : place ∈ t.places := by
  cases place with
  | nil => exact .head _
  | cons name dir =>
    obtain ⟨front, back, hEntries, -⟩ := List.lookup_eq_some_iff.mp h
    rw [places, hEntries]
    simp

end FileTree

namespace Disk

variable {d d' : Disk} {p : Path} {dir : Place} {name : String}

theorem destination_within (hWithin : d.tree.Within d'.tree) (hHere : d'.here = d.here)
    {last asDirectory : Bool} {place : Place} {e : Entry}
    (h : d.destination last p = .ok ⟨.taken place e, asDirectory⟩) :
    d'.destination last p = .ok ⟨.taken place e, asDirectory⟩ := by
  rw [destination] at h ⊢
  split at h
  · cases h
  · rename_i hText
    rw [if_neg hText, start, hHere]
    exact FileTree.trace_within hWithin h

theorem entry_within (hWithin : d.tree.Within d'.tree) (hHere : d'.here = d.here)
    {found : Place × Entry} (h : d.entry p = .ok found) : d'.entry p = .ok found := by
  have hEntry := h
  rw [entry] at hEntry
  split at hEntry
  · cases hEntry
  · cases hEntry
  · rename_i hTaken
    rw [← h, entry, entry, hTaken, destination_within hWithin hHere hTaken]
  · rename_i hTaken
    rw [← h, entry, entry, hTaken, destination_within hWithin hHere hTaken]

theorem canonical_within (hWithin : d.tree.Within d'.tree) (hHere : d'.here = d.here)
    {place : Place} (h : d.canonical p = .ok place) : d'.canonical p = .ok place := by
  rw [canonical] at h ⊢
  cases hEntry : d.entry p with
  | error fault =>
    rw [hEntry] at h
    cases h
  | ok found => rwa [entry_within hWithin hHere hEntry, ← hEntry]

theorem content_within (hWithin : d.tree.Within d'.tree) (hHere : d'.here = d.here)
    {content : Content} (h : d.content p = .ok content) : d'.content p = .ok content := by
  rw [Disk.content] at h ⊢
  cases hEntry : d.entry p with
  | error fault =>
    rw [hEntry] at h
    cases h
  | ok found => rwa [entry_within hWithin hHere hEntry, ← hEntry]

/-- A path that comes down to a directory and to a missing name in it leads nowhere. -/
theorem entry_missing (hText : p.text ≠ "") {rest : List String}
    (hDown : ∀ onLink, d.tree.follow true onLink (d.start p) p.segments
      = d.tree.follow true onLink dir (name :: rest))
    (hName : IsName name) (hMissing : d.tree.get? (name :: dir) = none) :
    d.entry p = .error .notFound := by
  obtain ⟨onLink, hTrace⟩ := d.tree.exists_trace_eq true linkLimit
  rw [entry, destination, if_neg hText, hTrace, hDown]
  rcases FileTree.follow_missing hName hMissing rest with hFault | ⟨_, hFree⟩
  · rw [hFault]
  · rw [hFree]

theorem entry_seenFrom_missing (hName : IsName name) (hMissing : d.tree.get? (name :: dir) = none) :
    (d.seenFrom dir).entry ⟨name⟩ = .error .notFound := by
  have hDown : ∀ onLink, (d.seenFrom dir).tree.follow true onLink ((d.seenFrom dir).start ⟨name⟩)
      (Path.mk name).segments = d.tree.follow true onLink dir [name] := by
    intro onLink
    rw [start, hName.not_absolute, hName.segments]
    rfl
  exact entry_missing hName.1 hDown hName hMissing

theorem start_path (place : Place) : d.start place.path = [] := by
  rw [start, if_pos place.isAbsolute_path]

theorem entry_path_missing {names : Place} (hNames : ∀ s ∈ names ++ name :: dir, IsName s)
    (hDir : d.tree.get? dir = some .directory) (hMissing : d.tree.get? (name :: dir) = none) :
    d.entry (Place.path (names ++ name :: dir)) = .error .notFound := by
  have hTop : d.tree.get? (dir.reverse.reverse ++ []) = some .directory := by simpa using hDir
  have hDown : ∀ onLink, d.tree.follow true onLink (d.start (Place.path (names ++ name :: dir)))
      (Place.path (names ++ name :: dir)).segments
        = d.tree.follow true onLink dir (name :: names.reverse) := by
    intro onLink
    rw [start_path, Place.segments_path hNames (by simp), FileTree.follow_empty,
      List.reverse_append, List.reverse_cons, List.append_assoc, List.singleton_append,
      FileTree.follow_down hTop]
    simp
  exact entry_missing (Path.text_ne_empty (Place.isAbsolute_path _)) hDown (hNames name (by simp))
    hMissing

theorem entry_path_directory (h : d.tree.get? dir = some .directory) :
    d.entry dir.path = .ok (dir, .directory) := by
  obtain ⟨onLink, hTrace⟩ := d.tree.exists_trace_eq true linkLimit
  have hDown : d.tree.get? (dir.reverse.reverse ++ []) = some .directory := by simpa using h
  have hFollow :
      d.tree.follow true onLink [] dir.path.segments = .ok ⟨.taken dir .directory, true⟩ := by
    by_cases hTop : dir = []
    · subst hTop
      rfl
    · rw [Place.segments_path (FileTree.isName_of_get? h) hTop, FileTree.follow_empty,
        ← List.append_nil dir.reverse, FileTree.follow_down hDown]
      simp [FileTree.follow]
  have hDestination : d.destination true dir.path = .ok ⟨.taken dir .directory, true⟩ := by
    rw [destination, if_neg (Path.text_ne_empty dir.isAbsolute_path), start_path, hTrace, hFollow]
  rw [entry, hDestination]

theorem entry_seenFrom_directory (h : d.tree.get? (name :: dir) = some .directory) :
    (d.seenFrom dir).entry ⟨name⟩ = .ok (name :: dir, .directory) := by
  have hName : IsName name := FileTree.isName_of_get? h name (.head _)
  obtain ⟨onLink, hTrace⟩ := d.tree.exists_trace_eq true linkLimit
  have hDestination : (d.seenFrom dir).destination true ⟨name⟩
      = .ok ⟨.taken (name :: dir) .directory, true⟩ := by
    rw [destination, if_neg hName.1, start, hName.not_absolute, hName.segments, seenFrom, hTrace]
    exact FileTree.follow_directory hName h
  rw [entry, hDestination]

section Put

variable {after : Disk} {e : Entry} (h : d.put dir name e = .ok after)

include h

theorem exists_put? :
    ∃ tree, d.tree.put? dir name e = some tree ∧ after = { d with tree := tree } := by
  rw [put] at h
  cases hPut : d.tree.put? dir name e with
  | none =>
    rw [hPut] at h
    cases h
  | some tree =>
    rw [hPut] at h
    cases h
    exact ⟨tree, rfl, rfl⟩

theorem here_put : after.here = d.here := by
  obtain ⟨_, -, rfl⟩ := exists_put? h
  rfl

theorem get?_put (place : Place) :
    after.tree.get? place = if place = name :: dir then some e else d.tree.get? place := by
  obtain ⟨_, hPut, rfl⟩ := exists_put? h
  exact FileTree.get?_put? hPut place

theorem within_put (hFree : d.tree.get? (name :: dir) = none) : d.tree.Within after.tree := by
  intro place other hGet
  rw [get?_put h, if_neg, hGet]
  rintro rfl
  rw [hFree] at hGet
  cases hGet

end Put

theorem linesOf_missing (h : d.entry p = .error .notFound) : d.linesOf p = [] := by
  rw [linesOf, Disk.content, h]

end Disk

end ModuleAtlas.Files
