import ModuleAtlas.Discovery
import ModuleAtlas.Proofs.Files.Follow
import ModuleAtlas.Proofs.ModuleSet

/-!
# Discovered modules

A discovered module is identified by the path of its file's place, which is absolute and clean, and
which leads to the file.
-/

namespace ModuleAtlas

open Files

namespace Discovery

theorem append_of_below? {place dir names : Place} (h : place.below? dir = some names) :
    names ++ dir = place := by
  rw [Place.below?] at h
  split at h
  · rename_i hInside
    obtain ⟨front, rfl⟩ := List.isSuffixOf_iff_suffix.mp hInside
    cases h
    simp
  · cases h

theorem file_of_mem_files {d : Disk} {root names : Place} (h : names ∈ files d root) :
    ∃ content, d.tree.get? (names ++ root) = some (.file content) := by
  rw [files] at h
  obtain ⟨place, hPlace, hBelow⟩ := List.mem_filterMap.mp h
  obtain ⟨-, hFile⟩ := List.mem_filter.mp hPlace
  obtain ⟨hBelow, -⟩ := Option.filter_eq_some_iff.mp hBelow
  rw [append_of_below? hBelow]
  split at hFile
  · rename_i content hGet
    exact ⟨content, hGet⟩
  · cases hFile

end Discovery

namespace ModuleSet

/-- The modules of the files that a scan of a directory keeps. -/
def scan (d : Disk) (base : Place) (filter : Glob.Filter) (declarations : Bool) : List Path :=
  ((Discovery.files d base).filter fun names =>
    filter.passes (Place.relative names)
      && (declarations || ! Discovery.isDeclaration (names ++ base))).map fun names =>
    (names ++ base : Place).path

theorem discover_ok_iff {d : Disk} {root : Path} {patterns : List String} {declarations : Bool}
    {modules : ModuleSet} :
    discover d root patterns declarations = .ok modules ↔
      ∃ base filter, d.canonical root = .ok base ∧ Glob.Filter.ofPatterns patterns = .ok filter ∧
        modules = ofModules base.path ((scan d base filter declarations).map .ofPath) := by
  rw [discover]
  constructor
  · intro h
    split at h
    · cases h
    · rename_i base hBase
      split at h
      · cases h
      · rename_i filter hFilter
        cases h
        exact ⟨base, filter, hBase, hFilter, by rw [scan, List.map_map]; rfl⟩
  · rintro ⟨base, filter, hBase, hFilter, rfl⟩
    rw [hBase]
    dsimp only
    rw [hFilter, scan, List.map_map]
    rfl

theorem discover_invalid {d : Disk} {root : Path} {base : Place} {patterns : List String}
    {declarations : Bool} {cause : Glob.InvalidPattern} (hRoot : d.canonical root = .ok base)
    (h : Glob.Filter.ofPatterns patterns = .error cause) :
    discover d root patterns declarations = .error (.patterns cause) := by
  rw [discover, hRoot]
  dsimp only
  rw [h]

theorem file_of_mem_scan {d : Disk} {base : Place} {filter : Glob.Filter} {declarations : Bool}
    {p : Path} (h : p ∈ scan d base filter declarations) :
    ∃ (place : Place) (content : Content),
      d.tree.get? place = some (.file content) ∧ p = place.path := by
  obtain ⟨names, hNames, rfl⟩ := List.mem_map.mp h
  obtain ⟨content, hFile⟩ := Discovery.file_of_mem_files (List.mem_filter.mp hNames).1
  exact ⟨names ++ base, content, hFile, rfl⟩

section Discovered

variable {d : Disk} {root : Path} {patterns : List String} {declarations : Bool}
  {modules : ModuleSet} (h : discover d root patterns declarations = .ok modules)

include h

theorem exists_place : ∃ base : Place, modules.root = base.path ∧
    ∀ m ∈ modules.modules, ∃ (place : Place) (content : Content),
      d.tree.get? place = some (.file content) ∧ m.path = place.path := by
  obtain ⟨base, filter, -, -, rfl⟩ := discover_ok_iff.mp h
  refine ⟨base, rfl, fun m hm => ?_⟩
  rw [ofModules, mem_sortedDistinct] at hm
  obtain ⟨p, hp, rfl⟩ := List.mem_map.mp hm
  obtain ⟨place, content, hFile, rfl⟩ := file_of_mem_scan hp
  have hClean : place.path.clean = place.path := Place.clean_path (FileTree.isName_of_get? hFile)
  exact ⟨place, content, hFile, hClean⟩

theorem isAbsolute_root : modules.root.isAbsolute = true := by
  obtain ⟨base, hBase, -⟩ := exists_place h
  rw [hBase]
  exact base.isAbsolute_path

variable {m : ModuleId} (hm : m ∈ modules.modules)

include hm

theorem isFile_of_mem : d.isFile m.path = true := by
  obtain ⟨_, -, hFiles⟩ := exists_place h
  obtain ⟨place, content, hFile, hPath⟩ := hFiles m hm
  rw [hPath]
  exact Disk.isFile_path hFile

theorem isAbsolute_of_mem : m.path.isAbsolute = true := by
  obtain ⟨_, -, hFiles⟩ := exists_place h
  obtain ⟨place, _, -, hPath⟩ := hFiles m hm
  rw [hPath]
  exact place.isAbsolute_path

theorem clean_of_mem : m.path.clean = m.path := by
  obtain ⟨_, -, hFiles⟩ := exists_place h
  obtain ⟨place, _, hFile, hPath⟩ := hFiles m hm
  rw [hPath]
  exact Place.clean_path (FileTree.isName_of_get? hFile)

end Discovered

end ModuleSet

end ModuleAtlas
