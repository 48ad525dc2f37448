import ModuleAtlas.Proofs.Discovery
import ModuleAtlas.Proofs.Files.Lookup

/-!
# What discovery depends on

Discovery answers alike on two disks, whatever it is asked for, exactly if a scan of the root
arrives at the same files on both.
-/

namespace ModuleAtlas

open Files

namespace Discovery

variable {d : Disk} {root names : Place}

theorem mem_files_iff : names ∈ files d root ↔
    (∃ content, d.tree.get? (names ++ root) = some (.file content)) ∧
      reaches (Ignore.Judge.ofDisk d root) root false names = true := by
  rw [files]
  simp only [List.mem_filterMap, List.mem_filter, Option.filter_eq_some_iff]
  constructor
  · rintro ⟨place, ⟨-, hFile⟩, hBelow, hReached⟩
    rw [append_of_below? hBelow]
    refine ⟨?_, hReached⟩
    split at hFile
    · exact ⟨_, ‹_›⟩
    · cases hFile
  · rintro ⟨⟨content, hFile⟩, hReached⟩
    have hBelow := Place.below?_append names root
    refine ⟨names ++ root, ⟨FileTree.mem_places hFile, ?_⟩, hBelow, hReached⟩
    rw [hFile]

/-- Whether all answers of discovery for a root are the same on two disks. -/
def Alike (d d' : Disk) (root : Path) : Prop :=
  ∀ patterns declarations, ModuleSet.discover d root patterns declarations
    = ModuleSet.discover d' root patterns declarations

theorem Alike.symm {d d' : Disk} {root : Path} (h : Alike d d' root) : Alike d' d root :=
  fun patterns declarations => (h patterns declarations).symm

theorem discover_eq_ok {base : Place} {filter : Glob.Filter} {patterns : List String} {root : Path}
    (hRoot : d.canonical root = .ok base) (hFilter : Glob.Filter.ofPatterns patterns = .ok filter)
    (declarations : Bool) :
    ModuleSet.discover d root patterns declarations
      = .ok (.ofModules base.path ((ModuleSet.scan d base filter declarations).map .ofPath)) :=
  ModuleSet.discover_ok_iff.mpr ⟨base, filter, hRoot, hFilter, rfl⟩

/-- The filter that passes every path. -/
def everything : Glob.Filter := ⟨[⟨[.leading]⟩], []⟩

theorem ofPatterns_everything : Glob.Filter.ofPatterns ["**"] = .ok everything := rfl

theorem scan_everything (d : Disk) (base : Place) : ModuleSet.scan d base everything true
    = (files d base).map fun names => (names ++ base : Place).path := by
  rw [ModuleSet.scan, List.filter_eq_self.mpr]
  intro names _
  rfl

/-- A scan without restrictions finds exactly the files that it arrives at. -/
theorem mem_modules_iff {base : Place} (hNames : ∀ s ∈ names ++ base, IsName s) :
    ModuleId.ofPath (Place.path (names ++ base)) ∈ (ModuleSet.ofModules base.path
        ((ModuleSet.scan d base everything true).map .ofPath)).modules ↔
      names ∈ files d base := by
  rw [ModuleSet.ofModules, mem_sortedDistinct, scan_everything, List.map_map, List.mem_map]
  constructor
  · rintro ⟨other, hOther, hSame⟩
    obtain ⟨content, hFile⟩ := file_of_mem_files hOther
    have hOtherNames : ∀ s ∈ other ++ base, IsName s := FileTree.isName_of_get? hFile
    have hPaths : (Place.path (other ++ base)).clean = (Place.path (names ++ base)).clean :=
      congrArg ModuleId.path hSame
    rw [Place.clean_path hOtherNames, Place.clean_path hNames] at hPaths
    rwa [← List.append_cancel_right (Place.path_injective hOtherNames hNames hPaths)]
  · exact fun hFile => ⟨names, hFile, rfl⟩

section Rooted

variable {d' : Disk} {root : Path} {base : Place} (hRoot : d.canonical root = .ok base)
  (hRoot' : d'.canonical root = .ok base)

include hRoot hRoot'

theorem files_subset_of_alike (h : Alike d d' root) : files d base ⊆ files d' base := by
  intro names hMem
  obtain ⟨content, hFile⟩ := file_of_mem_files hMem
  have hSets := h ["**"] true
  rw [discover_eq_ok hRoot ofPatterns_everything,
    discover_eq_ok hRoot' ofPatterns_everything] at hSets
  have hModules := congrArg ModuleSet.modules (Except.ok.inj hSets)
  have hNames : ∀ s ∈ names ++ base, IsName s := FileTree.isName_of_get? hFile
  rwa [← mem_modules_iff hNames, ← hModules, mem_modules_iff hNames]

theorem alike_iff : Alike d d' root ↔ ∀ names, names ∈ files d base ↔ names ∈ files d' base := by
  constructor
  · intro hAlike names
    exact ⟨fun h => files_subset_of_alike hRoot hRoot' hAlike h,
      fun h => files_subset_of_alike hRoot' hRoot hAlike.symm h⟩
  · intro hFiles patterns declarations
    cases hFilter : Glob.Filter.ofPatterns patterns with
    | error cause =>
      rw [ModuleSet.discover_invalid hRoot hFilter, ModuleSet.discover_invalid hRoot' hFilter]
    | ok filter =>
      rw [discover_eq_ok hRoot hFilter, discover_eq_ok hRoot' hFilter]
      congr 1
      apply ModuleSet.ofModules_eq
      intro m
      simp only [ModuleSet.scan, List.mem_map, List.mem_filter, hFiles]

end Rooted

end Discovery

end ModuleAtlas
