import ModuleAtlas.Proofs.Files.Lookup

/-!
# Trees that differ in one file

Two trees may hold different things at one place, each of them a file or nothing. Then a path leads
to the same end in both, or it comes to that place. So only the paths that lead to the file in one
of the trees can be a file in one and none in the other, and no path is a directory in one alone.
-/

namespace ModuleAtlas.Files

variable {dir : Place} {name : String} {old? new? : Option Content}

/-- The end of a path that comes to a file's place, where a file may be, with pieces left. -/
def endAt (dir : Place) (name : String) (content? : Option Content) (rest : List String) :
    Except Fault Destination :=
  match content? with
  | some content =>
    if rest.all (· == "") then .ok ⟨.taken (name :: dir) (.file content), ! rest.isEmpty⟩
    else .error .notDirectory
  | none => if rest.all (· == "") then .ok ⟨.free dir name, ! rest.isEmpty⟩ else .error .notFound

/-- What such a path leads to: the file, if there is one and no piece asks for more. -/
def entryAt (dir : Place) (name : String) (content? : Option Content) (rest : List String) :
    Except Fault (Place × Entry) :=
  match content? with
  | some content => if rest = [] then .ok (name :: dir, .file content) else .error .notDirectory
  | none => .error .notFound

theorem entryAt_cases (dir : Place) (name : String) (content? : Option Content)
    (rest : List String) :
    (content? ≠ none ∧ ∃ content, entryAt dir name content? rest = .ok (name :: dir, .file content))
      ∨ ∃ fault, entryAt dir name content? rest = .error fault := by
  cases content? with
  | none => exact .inr ⟨_, rfl⟩
  | some content =>
    by_cases hRest : rest = []
    · exact .inl ⟨Option.some_ne_none _, content, if_pos hRest⟩
    · exact .inr ⟨_, if_neg hRest⟩

/-- Two trees that hold a file or nothing at one place, and the same everywhere else. -/
structure DifferAt (dir : Place) (name : String) (old? new? : Option Content) (t t' : FileTree) :
    Prop where
  before : t.get? (name :: dir) = old?.map Entry.file
  after : t'.get? (name :: dir) = new?.map Entry.file
  elsewhere : ∀ place, place ≠ name :: dir → t'.get? place = t.get? place

/-- The two ends that a path can have in such trees. -/
def Parallel (dir : Place) (name : String) (old? new? : Option Content)
    (result result' : Except Fault Destination) : Prop :=
  result' = result ∨ ∃ rest, result = endAt dir name old? rest ∧ result' = endAt dir name new? rest

namespace FileTree

variable {t t' : FileTree} {last : Bool}

theorem follow_stay {onLink : Place → Path → List String → Except Fault Destination}
    {start : Place} {piece : String} (rest : List String) (h : piece = "" ∨ piece = ".") :
    t.follow last onLink start (piece :: rest) = t.follow last onLink start rest := by
  rw [follow, if_pos h]

theorem follow_up {onLink : Place → Path → List String → Except Fault Destination}
    (start : Place) (rest : List String) :
    t.follow last onLink start (".." :: rest) = t.follow last onLink start.tail rest := by
  rw [follow, if_neg (by decide), if_pos rfl]

theorem follow_endAt {onLink : Place → Path → List String → Except Fault Destination}
    {start : Place} {piece : String} {content? : Option Content} (rest : List String)
    (hStay : ¬ (piece = "" ∨ piece = ".")) (hUp : piece ≠ "..")
    (h : t.get? (piece :: start) = content?.map Entry.file) :
    t.follow last onLink start (piece :: rest) = endAt start piece content? rest := by
  rw [follow, if_neg hStay, if_neg hUp, h]
  cases content? with
  | none => rfl
  | some content => rfl

theorem parallel_follow (h : DifferAt dir name old? new? t t')
    {onLink onLink' : Place → Path → List String → Except Fault Destination}
    (hLink : ∀ start target rest,
      Parallel dir name old? new? (onLink start target rest) (onLink' start target rest))
    (start : Place) (pieces : List String) :
    Parallel dir name old? new? (t.follow last onLink start pieces)
      (t'.follow last onLink' start pieces) := by
  induction pieces generalizing start with
  | nil => exact .inl rfl
  | cons piece rest ih =>
    by_cases hStay : piece = "" ∨ piece = "."
    · rw [follow_stay rest hStay, follow_stay rest hStay]
      exact ih start
    by_cases hUp : piece = ".."
    · subst hUp
      rw [follow_up, follow_up]
      exact ih start.tail
    by_cases hHere : piece :: start = name :: dir
    · cases hHere
      exact .inr ⟨rest, follow_endAt rest hStay hUp h.before, follow_endAt rest hStay hUp h.after⟩
    -- Away from that place both trees hold the same.
    rw [follow, if_neg hStay, if_neg hUp, follow, if_neg hStay, if_neg hUp, h.elsewhere _ hHere]
    cases t.get? (piece :: start) with
    | none => exact .inl rfl
    | some e =>
      cases e with
      | file content => exact .inl rfl
      | directory => exact ih (piece :: start)
      | link target =>
        dsimp only
        split
        · exact .inl rfl
        · exact hLink start target rest

theorem parallel_trace (h : DifferAt dir name old? new? t t') (links : Nat) (start : Place)
    (pieces : List String) :
    Parallel dir name old? new? (t.trace last links start pieces)
      (t'.trace last links start pieces) := by
  induction links generalizing start pieces with
  | zero => exact parallel_follow h (fun _ _ _ => .inl rfl) start pieces
  | succ links ih => exact parallel_follow h (fun _ _ _ => ih _ _) start pieces

end FileTree

namespace Disk

variable {d d' : Disk}

theorem parallel_destination (h : DifferAt dir name old? new? d.tree d'.tree)
    (hHere : d'.here = d.here) (last : Bool) (p : Path) :
    Parallel dir name old? new? (d.destination last p) (d'.destination last p) := by
  rw [destination, destination, start, start, hHere]
  split
  · exact .inl rfl
  · exact FileTree.parallel_trace h _ _ _

theorem entry_of_endAt {p : Path} {content? : Option Content} {rest : List String}
    (h : d.destination true p = endAt dir name content? rest) :
    d.entry p = entryAt dir name content? rest := by
  rw [entry, h]
  cases content? with
  | none =>
    simp only [endAt, entryAt]
    by_cases hAll : rest.all (· == "")
    · rw [if_pos hAll]
    · rw [if_neg hAll]
  | some content =>
    simp only [endAt, entryAt]
    by_cases hAll : rest.all (· == "")
    · rw [if_pos hAll]
      cases rest with
      | nil => rfl
      | cons piece rest => rfl
    · have hRest : rest ≠ [] := by
        rintro rfl
        exact hAll rfl
      rw [if_neg hAll, if_neg hRest]

theorem isDirectory_of_endAt {p : Path} {content? : Option Content} {rest : List String}
    (h : d.destination true p = endAt dir name content? rest) : d.isDirectory p = false := by
  rw [isDirectory, entry_of_endAt h]
  obtain ⟨hSome, content, hEntry⟩ | ⟨fault, hEntry⟩ := entryAt_cases dir name content? rest
  · rw [hEntry]
  · rw [hEntry]

/-- No file stands for such a path, if the path does not lead to the file's place. -/
theorem isFile_of_endAt {p : Path} {content? : Option Content} {rest : List String}
    (h : d.destination true p = endAt dir name content? rest)
    (hOther : content? ≠ none → d.canonical p ≠ .ok (name :: dir)) : d.isFile p = false := by
  rw [canonical, entry_of_endAt h] at hOther
  rw [isFile, entry_of_endAt h]
  obtain ⟨hSome, content, hEntry⟩ | ⟨fault, hEntry⟩ := entryAt_cases dir name content? rest
  · rw [hEntry] at hOther
    exact absurd rfl (hOther hSome)
  · rw [hEntry]

section Differ

variable (h : DifferAt dir name old? new? d.tree d'.tree) (hHere : d'.here = d.here) (p : Path)

include h hHere

theorem isDirectory_differ : d'.isDirectory p = d.isDirectory p := by
  rcases parallel_destination h hHere true p with hSame | ⟨rest, hOld, hNew⟩
  · rw [isDirectory, isDirectory, entry, entry, hSame]
  · rw [isDirectory_of_endAt hOld, isDirectory_of_endAt hNew]

/-- A path that leads to the file in neither tree is a file in both or in none. -/
theorem isFile_differ (hOld : old? ≠ none → d.canonical p ≠ .ok (name :: dir))
    (hNew : new? ≠ none → d'.canonical p ≠ .ok (name :: dir)) : d'.isFile p = d.isFile p := by
  rcases parallel_destination h hHere true p with hSame | ⟨rest, hEndOld, hEndNew⟩
  · rw [isFile, isFile, entry, entry, hSame]
  · rw [isFile_of_endAt hEndOld hOld, isFile_of_endAt hEndNew hNew]

end Differ

/-! ## Writing and deleting a file -/

theorem differAt_put {content : Content} (hOld : d.tree.get? (name :: dir) = old?.map Entry.file)
    (h : d.put dir name (.file content) = .ok d') :
    DifferAt dir name old? (some content) d.tree d'.tree where
  before := hOld
  after := by rw [get?_put h, if_pos rfl, Option.map_some]
  elsewhere := by
    intro place hPlace
    rw [get?_put h, if_neg hPlace]

theorem differAt_remove {content : Content}
    (hFile : d.tree.get? (name :: dir) = some (.file content)) :
    DifferAt dir name (some content) none d.tree (d.tree.remove (name :: dir)) where
  before := hFile
  after := by
    rw [FileTree.get?_remove (List.cons_ne_nil _ _), if_pos List.suffix_rfl, Option.map_none]
  elsewhere := by
    intro place hPlace
    cases place with
    | nil => rfl
    | cons other above =>
      rw [FileTree.get?_remove (List.cons_ne_nil _ _)]
      split
      · -- Below a file there is nothing to remove.
        rename_i hBelow
        obtain ⟨names, hNames⟩ := hBelow
        have hSome : names ≠ [] := by
          rintro rfl
          exact hPlace hNames.symm
        rw [← hNames]
        cases hGet : d.tree.get? (names ++ name :: dir) with
        | none => rfl
        | some e =>
          have hDirectory := FileTree.directory_above hSome hGet
          rw [hFile] at hDirectory
          cases hDirectory
      · rfl

end Disk

end ModuleAtlas.Files
