import ModuleAtlas.ModuleSet
import ModuleAtlas.Proofs.Path.Spelling
import ModuleAtlas.Proofs.Sorted

/-!
# Module sets and their order

A module set lists its modules in strictly increasing path order, so it is fixed by its members,
and a selection keeps that order.
-/

namespace ModuleAtlas.ModuleSet

theorem apart_ofPath {paths : List Path} (a : ModuleId) (ha : a ∈ paths.map ModuleId.ofPath)
    (b : ModuleId) (hb : b ∈ paths.map ModuleId.ofPath) (hSame : compare a b = .eq) : a = b := by
  obtain ⟨p, -, rfl⟩ := List.mem_map.mp ha
  obtain ⟨q, -, rfl⟩ := List.mem_map.mp hb
  exact ModuleId.ofPath_eq_of_compare hSame

theorem increasing_ofModules (root : Path) (paths : List Path) :
    Increasing (ofModules root (paths.map .ofPath)).modules :=
  increasing_sortedDistinct_of_apart apart_ofPath

/-- Neither the order nor the repetitions of the given modules show in their set. -/
theorem ofModules_eq {root : Path} {paths paths' : List Path}
    (hPaths : ∀ m, m ∈ paths.map ModuleId.ofPath ↔ m ∈ paths'.map ModuleId.ofPath) :
    ofModules root (paths.map .ofPath) = ofModules root (paths'.map .ofPath) := by
  rw [ofModules, ofModules, sortedDistinct_eq_of_mem_iff apart_ofPath hPaths]

theorem select_sublist {s : ModuleSet} {patterns : List String} {selected : List ModuleId}
    (h : s.select patterns = .ok selected) : selected.Sublist s.modules := by
  rw [select] at h
  cases hFilter : Glob.Filter.ofPatterns patterns with
  | error cause =>
    rw [hFilter] at h
    cases h
  | ok filter =>
    rw [hFilter] at h
    cases h
    exact List.filter_sublist

theorem increasing_select {root : Path} {paths : List Path} {patterns : List String}
    {selected : List ModuleId}
    (h : (ofModules root (paths.map .ofPath)).select patterns = .ok selected) :
    Increasing selected :=
  (increasing_ofModules root paths).sublist (select_sublist h)

end ModuleAtlas.ModuleSet
