import ModuleAtlas.Files.Disk
import ModuleAtlas.Proofs.Path.Place

/-!
# Following the path of a place

Every entry of a tree lies in directories alone, so the path of a file's place leads to that file
without meeting a link.
-/

namespace ModuleAtlas.Files

namespace FileTree

variable {t : FileTree} {dir : Place} {e : Entry}

theorem get?_dir {name : String} (h : t.get? (name :: dir) = some e) :
    t.get? dir = some .directory :=
  get?_directory_iff.mpr (t.rooted name dir e h).2

theorem isName_of_get? {place : Place} (h : t.get? place = some e) : ∀ s ∈ place, IsName s := by
  induction place generalizing e with
  | nil => nofun
  | cons name dir ih =>
    intro s hs
    rcases List.mem_cons.mp hs with rfl | hs
    · exact (t.rooted _ dir e h).1
    · exact ih (get?_dir h) s hs

theorem directory_above {names : Place} (hSome : names ≠ []) (h : t.get? (names ++ dir) = some e) :
    t.get? dir = some .directory := by
  induction names generalizing e with
  | nil => exact (hSome rfl).elim
  | cons name names ih =>
    have hDir := get?_dir h
    by_cases hLast : names = []
    · rwa [hLast] at hDir
    · exact ih hLast hDir

variable {last : Bool} {onLink : Place → Path → List String → Except Fault Destination}

theorem follow_empty (dir : Place) (rest : List String) :
    t.follow last onLink dir ("" :: rest) = t.follow last onLink dir rest := by
  rw [follow, if_pos (.inl rfl)]

theorem follow_directory {piece : String} {rest : List String} (hPiece : IsName piece)
    (h : t.get? (piece :: dir) = some .directory) :
    t.follow last onLink dir (piece :: rest) = t.follow last onLink (piece :: dir) rest := by
  obtain ⟨hEmpty, hHere, hUp, -⟩ := hPiece
  rw [follow, if_neg (by simp [hEmpty, hHere]), if_neg hUp, h]

theorem follow_file {piece : String} {content : Content} (hPiece : IsName piece)
    (h : t.get? (piece :: dir) = some (.file content)) :
    t.follow last onLink dir [piece] = .ok ⟨.taken (piece :: dir) (.file content), false⟩ := by
  obtain ⟨hEmpty, hHere, hUp, -⟩ := hPiece
  rw [follow, if_neg (by simp [hEmpty, hHere]), if_neg hUp, h]
  rfl

theorem follow_names {names : List String} {content : Content} (hSome : names ≠ [])
    (h : t.get? (names.reverse ++ dir) = some (.file content)) :
    t.follow last onLink dir names =
      .ok ⟨.taken (names.reverse ++ dir) (.file content), false⟩ := by
  induction names generalizing dir with
  | nil => exact (hSome rfl).elim
  | cons piece rest ih =>
    have hPiece : IsName piece := isName_of_get? h piece (by simp)
    rw [List.reverse_cons, List.append_assoc, List.singleton_append] at h ⊢
    by_cases hLast : rest = []
    · subst hLast
      exact follow_file hPiece h
    · have hDirectory := directory_above (by simpa using hLast) h
      rw [follow_directory hPiece hDirectory, ih hLast h]

theorem exists_trace_eq (t : FileTree) (last : Bool) (links : Nat) :
    ∃ onLink, t.trace last links = t.follow last onLink := by
  cases links with
  | zero => exact ⟨_, rfl⟩
  | succ links => exact ⟨_, rfl⟩

end FileTree

theorem Place.segments_path {place : Place} (hNames : ∀ s ∈ place, IsName s) (hSome : place ≠ []) :
    place.path.segments = "" :: place.reverse := by
  have hTexts : (place.reverse.map Component.name).map Component.text = place.reverse := by
    simp [Function.comp_def, Component.text]
  rw [path, Path.ofComponents, Path.segments_slash, hTexts, Path.segments_intercalate]
  · simpa using fun s hs => (hNames s hs).2.2.2
  · simpa using hSome

namespace Disk

variable {d : Disk} {place : Place} {content : Content}

theorem entry_path (h : d.tree.get? place = some (.file content)) :
    d.entry place.path = .ok (place, .file content) := by
  have hSome : place ≠ [] := by
    rintro rfl
    cases h
  obtain ⟨onLink, hTrace⟩ := d.tree.exists_trace_eq true linkLimit
  have hFollow : d.tree.follow true onLink [] place.reverse =
      .ok ⟨.taken place (.file content), false⟩ := by
    have hNames : d.tree.get? (place.reverse.reverse ++ []) = some (.file content) := by
      simpa using h
    simpa using FileTree.follow_names (by simpa using hSome) hNames
  have hDestination : d.destination true place.path = .ok ⟨.taken place (.file content), false⟩ := by
    rw [destination, if_neg (Path.text_ne_empty place.isAbsolute_path), start,
      if_pos place.isAbsolute_path, Place.segments_path (FileTree.isName_of_get? h) hSome, hTrace,
      FileTree.follow_empty, hFollow]
  rw [entry, hDestination]
  rfl

theorem isFile_path (h : d.tree.get? place = some (.file content)) :
    d.isFile place.path = true := by
  rw [isFile, entry_path h]

end Disk

end ModuleAtlas.Files
