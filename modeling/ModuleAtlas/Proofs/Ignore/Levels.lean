import ModuleAtlas.Ignore.Levels
import ModuleAtlas.Proofs.Files.Lookup

/-!
# Levels with one ignore file

Where the only ignore file is the `.gitignore` of the scanned root, only the level of the root can
have a say. Whether it has one depends on whether the root is the top of a repository.
-/

namespace ModuleAtlas.Ignore

open Files

/-- The names that bear on what a scan leaves out. -/
def bearingNames : List String := [".ignore", ".gitignore", ".git", ".jj"]

theorem isName_of_bearing : ∀ name ∈ bearingNames, IsName name := by decide

/-- Neither an ignore file nor a repository bears on a scan of a root, but for the file
`.gitignore` in the root itself. -/
def OnlyOwnFile (t : FileTree) (base : Place) : Prop :=
  ∀ place ∈ t.places, place.head?.any bearingNames.contains →
    place.tail <:+ base ∨ base <:+ place.tail → place = ".gitignore" :: base

instance (t : FileTree) (base : Place) : Decidable (OnlyOwnFile t base) :=
  inferInstanceAs (Decidable (∀ place ∈ t.places, _ → _ → _))

theorem OnlyOwnFile.missing {t : FileTree} {base dir : Place} {name : String}
    (h : OnlyOwnFile t base) (hName : name ∈ bearingNames) (hDir : dir <:+ base ∨ base <:+ dir)
    (hOther : name :: dir ≠ ".gitignore" :: base) : t.get? (name :: dir) = none := by
  cases hGet : t.get? (name :: dir) with
  | none => rfl
  | some e => exact (hOther (h _ (FileTree.mem_places hGet) (by simpa using hName) hDir)).elim

theorem OnlyOwnFile.missing_at_root {t : FileTree} {base : Place} {name : String}
    (h : OnlyOwnFile t base) (hName : name ∈ bearingNames) (hOther : name ≠ ".gitignore") :
    t.get? (name :: base) = none :=
  h.missing hName (.inl (List.suffix_refl base)) (by simpa using hOther)

namespace Level

variable {d : Disk} {dir : Place}

theorem join_git (hNames : ∀ s ∈ dir, IsName s) :
    dir.path.join ⟨".git"⟩ = Place.path (".git" :: dir) := by
  have hGit : IsName ".git" := by decide
  exact @Place.join_path dir [".git"] (by simpa using ⟨hGit, hNames⟩) (by simp)

theorem join_exclude (hNames : ∀ s ∈ dir, IsName s) :
    (Place.path (".git" :: dir)).join ⟨"info/exclude"⟩
      = Place.path ("exclude" :: "info" :: ".git" :: dir) := by
  have hMarks : IsName "exclude" ∧ IsName "info" ∧ IsName ".git" := by decide
  exact @Place.join_path (".git" :: dir) ["exclude", "info"] (by simpa [hMarks] using hNames)
    (by simp)

variable (hDir : d.tree.get? dir = some .directory)

include hDir

theorem excluded_eq_nil (hNoFile : d.isFile (Place.path (".git" :: dir)) = false)
    (hMissing : d.entry (Place.path ("exclude" :: "info" :: ".git" :: dir)) = .error .notFound) :
    (ofDirectory d dir).excluded = [] := by
  have hNames := FileTree.isName_of_get? hDir
  have hData : repositoryData? d dir = some (Place.path (".git" :: dir)) := by
    rw [repositoryData?, join_git hNames, hNoFile]
    rfl
  rw [ofDirectory, hData]
  dsimp only
  rw [join_exclude hNames, Disk.linesOf_missing hMissing, rulesOf]

theorem excluded_of_no_repository (h : d.tree.get? (".git" :: dir) = none) :
    (ofDirectory d dir).excluded = [] := by
  have hNames := FileTree.isName_of_get? hDir
  have hMarks : IsName "exclude" ∧ IsName "info" ∧ IsName ".git" := by decide
  have hGit : d.entry (Place.path (".git" :: dir)) = .error .notFound :=
    @Disk.entry_path_missing d dir ".git" [] (by simpa [hMarks] using hNames) hDir h
  have hExclude : d.entry (Place.path ("exclude" :: "info" :: ".git" :: dir)) = .error .notFound :=
    @Disk.entry_path_missing d dir ".git" ["exclude", "info"] (by simpa [hMarks] using hNames)
      hDir h
  exact excluded_eq_nil hDir (by rw [Disk.isFile, hGit]) hExclude

theorem excluded_of_empty_repository (hGit : d.tree.get? (".git" :: dir) = some .directory)
    (hEmpty : d.tree.get? ("info" :: ".git" :: dir) = none) :
    (ofDirectory d dir).excluded = [] := by
  have hNames := FileTree.isName_of_get? hGit
  have hMarks : IsName "exclude" ∧ IsName "info" := by decide
  have hExclude : d.entry (Place.path ("exclude" :: "info" :: ".git" :: dir)) = .error .notFound :=
    @Disk.entry_path_missing d (".git" :: dir) "info" ["exclude"] (by simpa [hMarks] using hNames)
      hGit hEmpty
  exact excluded_eq_nil hDir (by rw [Disk.isFile, Disk.entry_path_directory hGit]) hExclude

theorem ofDirectory_plain
    (h : ∀ name ∈ bearingNames, name ≠ ".gitignore" → d.tree.get? (name :: dir) = none) :
    ofDirectory d dir
      = ⟨dir, [], rulesOf ((d.seenFrom dir).linesOf gitIgnoreFile), [], false⟩ := by
  have hMissing : ∀ name ∈ bearingNames, name ≠ ".gitignore" →
      (d.seenFrom dir).entry ⟨name⟩ = .error .notFound := fun name hName hOther =>
    Disk.entry_seenFrom_missing (isName_of_bearing name hName) (h name hName hOther)
  have hGeneral : (d.seenFrom dir).linesOf ⟨".ignore"⟩ = [] :=
    Disk.linesOf_missing (hMissing _ (by decide) (by decide))
  have hExcluded : (ofDirectory d dir).excluded = [] :=
    excluded_of_no_repository hDir (h _ (by decide) (by decide))
  have hTop : (repositoryMarks.any fun mark => ((d.seenFrom dir).entry mark).isOk) = false := by
    rw [repositoryMarks, List.any_cons, List.any_cons, List.any_nil,
      hMissing ".git" (by decide) (by decide), hMissing ".jj" (by decide) (by decide)]
    rfl
  rw [ofDirectory] at hExcluded ⊢
  dsimp only at hExcluded
  rw [hGeneral, hExcluded, hTop, rulesOf]

theorem ofDirectory_top (hIgnore : d.tree.get? (".ignore" :: dir) = none)
    (hGit : d.tree.get? (".git" :: dir) = some .directory)
    (hEmpty : d.tree.get? ("info" :: ".git" :: dir) = none) :
    ofDirectory d dir
      = ⟨dir, [], rulesOf ((d.seenFrom dir).linesOf gitIgnoreFile), [], true⟩ := by
  have hGeneral : (d.seenFrom dir).linesOf ⟨".ignore"⟩ = [] :=
    Disk.linesOf_missing (Disk.entry_seenFrom_missing (by decide) hIgnore)
  have hExcluded : (ofDirectory d dir).excluded = [] :=
    excluded_of_empty_repository hDir hGit hEmpty
  have hTop : (repositoryMarks.any fun mark => ((d.seenFrom dir).entry mark).isOk) = true := by
    rw [repositoryMarks, List.any_cons, Disk.entry_seenFrom_directory hGit]
    rfl
  rw [ofDirectory] at hExcluded ⊢
  dsimp only at hExcluded
  rw [hGeneral, hExcluded, hTop, rulesOf]

end Level

namespace Judge

/-- The judge of a root outside of a repository whose own file is the only one. -/
def outside (rules : List Rule) (here : String) : Judge := ⟨[], rules, here⟩

/-- The judge of a root that is the top of a repository and whose own file is the only one. -/
def inside (base : Place) (rules : List Rule) (here : String) : Judge :=
  ⟨[⟨base, [], rules, [], true⟩], rules, here⟩

theorem verdictOf?_nil (l : Level) (isDirectory : Bool) (place : Place) :
    l.verdictOf? [] isDirectory place = none := by
  rw [Level.verdictOf?, Option.bind_eq_none_iff]
  exact fun _ _ => rfl

variable {j : Judge} {isDirectory : Bool} {place : Place}

theorem findSome?_general {levels : List Level} (h : ∀ l ∈ levels, l.general = []) :
    levels.findSome? (fun l => l.verdictOf? l.general isDirectory place) = none := by
  rw [List.findSome?_eq_none_iff]
  intro l hl
  rw [h l hl, verdictOf?_nil]

theorem outside_verdict? (rules : List Rule) (here : String) :
    (outside rules here).verdict? isDirectory place
      = Ignore.verdict? rules isDirectory ((outside rules here).fromHere place.path.text) := rfl

/-- At the top of a repository they are first seen from the root, and then as they are outside. -/
theorem inside_verdict? {base : Place} (hBase : base <:+ place.tail) (rules : List Rule)
    (here : String) :
    (inside base rules here).verdict? isDirectory place
      = ((Level.mk base [] rules [] true).verdictOf? rules isDirectory place
        <|> (outside rules here).verdict? isDirectory place) := by
  have hSuffix : base.isSuffixOf place.tail = true := List.isSuffixOf_iff_suffix.mpr hBase
  rw [outside_verdict?]
  simp only [verdict?, inside, hSuffix, List.filter_cons, List.filter_nil, inRepository,
    inRepository.upToTop, List.any_cons, List.findSome?_singleton, verdictOf?_nil,
    Bool.true_or, if_true]
  rfl

theorem verdict?_eq_outside
    (h : ∀ l ∈ j.levels, l.dir <:+ place.tail → l.general = [] ∧ l.isTop = false) :
    j.verdict? isDirectory place = (outside j.named j.here).verdict? isDirectory place := by
  have hAbove : ∀ l ∈ j.levels.filter (fun l => l.dir.isSuffixOf place.tail),
      l.general = [] ∧ l.isTop = false := by
    intro l hl
    obtain ⟨hLevel, hDir⟩ := List.mem_filter.mp hl
    exact h l hLevel (List.isSuffixOf_iff_suffix.mp hDir)
  have hNone : inRepository (j.levels.filter fun l => l.dir.isSuffixOf place.tail) = [] := by
    rw [inRepository, if_neg]
    rw [Bool.not_eq_true, List.any_eq_false]
    exact fun l hl => Bool.not_eq_true _ ▸ (hAbove l hl).2
  rw [verdict?]
  dsimp only
  rw [hNone, findSome?_general fun l hl => (hAbove l hl).1]
  rfl

theorem verdict?_eq_inside {base : Place} (hBase : base <:+ place.tail)
    (h : ∀ l ∈ j.levels, l.dir <:+ place.tail → l = ⟨base, [], j.named, [], true⟩)
    (hSome : ⟨base, [], j.named, [], true⟩ ∈ j.levels) :
    j.verdict? isDirectory place = (inside base j.named j.here).verdict? isDirectory place := by
  have hSuffix : base.isSuffixOf place.tail = true := List.isSuffixOf_iff_suffix.mpr hBase
  have hAbove : ∀ l ∈ j.levels.filter (fun l => l.dir.isSuffixOf place.tail),
      l = ⟨base, [], j.named, [], true⟩ := by
    intro l hl
    obtain ⟨hLevel, hDir⟩ := List.mem_filter.mp hl
    exact h l hLevel (List.isSuffixOf_iff_suffix.mp hDir)
  have hTop : inRepository (j.levels.filter fun l => l.dir.isSuffixOf place.tail)
      = [⟨base, [], j.named, [], true⟩] := by
    cases hFilter : j.levels.filter (fun l => l.dir.isSuffixOf place.tail) with
    | nil => exact (List.filter_eq_nil_iff.mp hFilter _ hSome hSuffix).elim
    | cons l rest =>
      rw [hAbove l (hFilter ▸ .head _)]
      rfl
  rw [inside_verdict? hBase, verdict?]
  dsimp only
  rw [findSome?_general fun l hl => by rw [hAbove l hl], hTop]
  simp only [List.findSome?_singleton, verdictOf?_nil]
  rfl

theorem mem_levels_iff {d : Disk} {root : Place} {l : Level} :
    l ∈ (ofDisk d root).levels ↔
      ∃ dir, d.tree.get? dir = some .directory ∧ Level.ofDirectory d dir = l ∧
        l.isSilent = false := by
  rw [ofDisk]
  simp only [List.mem_mergeSort, List.mem_filter, List.mem_map, decide_eq_true_eq,
    Bool.not_eq_true']
  constructor
  · rintro ⟨⟨dir, ⟨-, hDir⟩, rfl⟩, hSays⟩
    exact ⟨dir, hDir, rfl, hSays⟩
  · rintro ⟨dir, hDir, rfl, hSays⟩
    exact ⟨⟨dir, ⟨FileTree.mem_places hDir, hDir⟩, rfl⟩, hSays⟩

section OneFile

variable {d marked : Disk} {base : Place} {content : Content}
  (hOnly : OnlyOwnFile d.tree base)
  (hFile : (d.seenFrom base).content gitIgnoreFile = .ok content)

include hOnly hFile

theorem verdict?_of_no_repository (hBelow : base <:+ place.tail) :
    (ofDisk d base).verdict? isDirectory place
      = (outside (rulesOf content.lines) d.here.path.text).verdict? isDirectory place := by
  have hNamed : (ofDisk d base).named = rulesOf content.lines := by
    rw [ofDisk, Disk.linesOf, hFile]
  rw [verdict?_eq_outside, hNamed]
  · rfl
  · intro l hLevel hAbove
    obtain ⟨dir, hDir, rfl, -⟩ := mem_levels_iff.mp hLevel
    have hBears : dir <:+ base ∨ base <:+ dir := List.suffix_or_suffix_of_suffix hAbove hBelow
    rw [Level.ofDirectory_plain hDir fun name hName hOther =>
      hOnly.missing hName hBears (by simp [hOther])]
    exact ⟨rfl, rfl⟩

section Marked

variable (hMark : d.put base ".git" .directory = .ok marked)

include hMark

theorem linesOf_marked : (marked.seenFrom base).linesOf gitIgnoreFile = content.lines := by
  have hWithin : d.tree.Within marked.tree :=
    Disk.within_put hMark (hOnly.missing_at_root (by decide) (by decide))
  have hContent : (marked.seenFrom base).content gitIgnoreFile = .ok content :=
    @Disk.content_within (d.seenFrom base) (marked.seenFrom base) _ hWithin rfl content hFile
  rw [Disk.linesOf, hContent]

theorem level_at_root :
    Level.ofDirectory marked base = ⟨base, [], rulesOf content.lines, [], true⟩ := by
  have hGet := Disk.get?_put hMark
  have hGit : marked.tree.get? (".git" :: base) = some .directory := by rw [hGet, if_pos rfl]
  have hIgnore : marked.tree.get? (".ignore" :: base) = none := by
    rw [hGet, if_neg (by simp)]
    exact hOnly.missing_at_root (by decide) (by decide)
  have hEmpty : marked.tree.get? ("info" :: ".git" :: base) = none := by
    rw [hGet, if_neg (by simp)]
    cases hInfo : d.tree.get? ("info" :: ".git" :: base) with
    | none => rfl
    | some e =>
      have hNested := FileTree.get?_dir hInfo
      rw [hOnly.missing_at_root (by decide) (by decide)] at hNested
      cases hNested
  rw [Level.ofDirectory_top (FileTree.get?_dir hGit) hIgnore hGit hEmpty,
    linesOf_marked hOnly hFile hMark]

omit hFile in
theorem level_elsewhere {dir : Place} (hDir : marked.tree.get? dir = some .directory)
    (hBears : dir <:+ base ∨ base <:+ dir) (hOther : dir ≠ base) :
    (Level.ofDirectory marked dir).isSilent = true := by
  have hMissing : ∀ name ∈ bearingNames, marked.tree.get? (name :: dir) = none := by
    intro name hName
    rw [Disk.get?_put hMark, if_neg (by simp [hOther])]
    exact hOnly.missing hName hBears (by simp [hOther])
  rw [Level.ofDirectory_plain hDir fun name hName _ => hMissing name hName,
    Disk.linesOf_missing (Disk.entry_seenFrom_missing (by decide) (hMissing _ (by decide)))]
  rfl

theorem verdict?_of_empty_repository (hBelow : base <:+ place.tail) :
    (ofDisk marked base).verdict? isDirectory place
      = (inside base (rulesOf content.lines) d.here.path.text).verdict? isDirectory place := by
  have hNamed : (ofDisk marked base).named = rulesOf content.lines := by
    rw [ofDisk, linesOf_marked hOnly hFile hMark]
  have hTop := level_at_root hOnly hFile hMark
  have hHere : marked.here = d.here := Disk.here_put hMark
  rw [verdict?_eq_inside hBelow, hNamed, ← hHere]
  · rfl
  · intro l hLevel hAbove
    obtain ⟨dir, hDir, rfl, hSays⟩ := mem_levels_iff.mp hLevel
    rw [hNamed]
    by_cases hOwn : dir = base
    · rw [hOwn, hTop]
    · have hBears : dir <:+ base ∨ base <:+ dir := List.suffix_or_suffix_of_suffix hAbove hBelow
      rw [level_elsewhere hOnly hMark hDir hBears hOwn] at hSays
      cases hSays
  · rw [hNamed, mem_levels_iff]
    have hBase : marked.tree.get? (".git" :: base) = some .directory := by
      rw [Disk.get?_put hMark, if_pos rfl]
    exact ⟨base, FileTree.get?_dir hBase, hTop, by simp [Level.isSilent]⟩

end Marked

end OneFile

end Judge

end ModuleAtlas.Ignore
