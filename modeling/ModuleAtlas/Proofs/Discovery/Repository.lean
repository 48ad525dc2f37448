import ModuleAtlas.Proofs.Discovery.Alike
import ModuleAtlas.Proofs.Ignore.Here
import ModuleAtlas.Proofs.Ignore.Lines

/-!
# Scans inside and outside of a repository

The rules of a root's `.gitignore` count whether or not the root is the top of a repository. Outside
of one they are seen from the working directory only, so tied patterns can miss what they hide
inside. The answers agree where the working directory is the root itself, and for rules that ask for
names from everywhere that is not below the root.
-/

namespace ModuleAtlas

open Files Ignore

namespace Discovery

theorem reaches_congr {j j' : Judge} {root names : Place}
    (h : ∀ isDirectory name above, name :: above <:+ names →
      j.verdict? isDirectory (name :: (above ++ root))
        = j'.verdict? isDirectory (name :: (above ++ root))) (isDirectory : Bool) :
    reaches j root isDirectory names = reaches j' root isDirectory names := by
  induction names generalizing isDirectory with
  | nil => rfl
  | cons name names ih =>
    rw [reaches, reaches, Judge.ignores, Judge.ignores, h _ _ _ (List.suffix_refl _),
      ih fun _ _ _ hAbove => h _ _ _ (hAbove.trans (List.suffix_cons ..))]

theorem isName_above {t : FileTree} {base names above : Place} {name : String} {e : Entry}
    (h : t.get? (names ++ base) = some e) (hAbove : name :: above <:+ names) :
    ∀ s ∈ name :: (above ++ base), IsName s := by
  intro s hs
  refine FileTree.isName_of_get? h s ?_
  rw [← List.cons_append, List.mem_append] at hs
  exact List.mem_append.mpr (hs.imp_left hAbove.mem)

section Repository

variable {d marked : Disk} {root : Path} {base : Place} {content : Content}
  (hRoot : d.canonical root = .ok base) (hOnly : OnlyOwnFile d.tree base)
  (hFile : (d.seenFrom base).content gitIgnoreFile = .ok content)
  (hMark : d.put base ".git" .directory = .ok marked)

include hRoot hOnly hFile hMark

theorem alike_iff_reached : Alike marked d root ↔
    ∀ names content', d.tree.get? (names ++ base) = some (.file content') →
      reaches (.inside base (rulesOf content.lines) d.here.path.text) base false names
        = reaches (.outside (rulesOf content.lines) d.here.path.text) base false names := by
  have hFree : d.tree.get? (".git" :: base) = none :=
    hOnly.missing_at_root (by decide) (by decide)
  have hRoot' : marked.canonical root = .ok base :=
    Disk.canonical_within (Disk.within_put hMark hFree) (Disk.here_put hMark) hRoot
  have hSameFiles : ∀ place content, marked.tree.get? place = some (.file content) ↔
      d.tree.get? place = some (.file content) := by
    intro place content
    rw [Disk.get?_put hMark]
    split
    · subst_vars
      simp [hFree]
    · rfl
  have hInside : ∀ names, reaches (.ofDisk marked base) base false names
      = reaches (.inside base (rulesOf content.lines) d.here.path.text) base false names := by
    intro names
    exact reaches_congr (fun _ _ above _ =>
      Judge.verdict?_of_empty_repository hOnly hFile hMark (List.suffix_append above base)) false
  have hOutside : ∀ names, reaches (.ofDisk d base) base false names
      = reaches (.outside (rulesOf content.lines) d.here.path.text) base false names := by
    intro names
    exact reaches_congr (fun _ _ above _ =>
      Judge.verdict?_of_no_repository hOnly hFile (List.suffix_append above base)) false
  rw [alike_iff hRoot' hRoot]
  simp only [mem_files_iff, hSameFiles, hInside, hOutside, and_congr_right_iff, forall_exists_index,
    Bool.coe_iff_coe]

theorem alike_at_root (hHere : d.here = base) : Alike marked d root := by
  rw [alike_iff_reached hRoot hOnly hFile hMark, hHere]
  intro names content' hGet
  exact reaches_congr (fun _ _ _ hAbove =>
    Judge.inside_eq_outside_at_root (isName_above hGet hAbove)) false

theorem alike_of_name_rules (hRules : ∀ r ∈ rulesOf content.lines, r.pattern.namesOnly = true)
    (hHere : ∀ s ∈ d.here, IsName s) (hApart : base <:+ d.here → d.here = base) :
    Alike marked d root := by
  rw [alike_iff_reached hRoot hOnly hFile hMark]
  intro names content' hGet
  exact reaches_congr (fun _ _ _ hAbove =>
    Judge.inside_eq_outside_of_names (isName_above hGet hAbove) hRules hHere hApart) false

end Repository

/-- An empty repository at the root leaves all answers as they are exactly if the rules of the
root's file, seen from the root and then from the working directory, let the same files through as
seen from the working directory alone. They do at the root itself, and elsewhere, but not below the
root, if they ask for names. -/
theorem repository_leaves_answers_iff (d marked : Disk) (root : Path) (base : Place)
    (content : Content) (hRoot : d.canonical root = .ok base) (hOnly : OnlyOwnFile d.tree base)
    (hFile : (d.seenFrom base).content gitIgnoreFile = .ok content)
    (hMark : d.put base ".git" .directory = .ok marked) :
    (Alike marked d root ↔
      ∀ names content', d.tree.get? (names ++ base) = some (.file content') →
        reaches (.inside base (rulesOf content.lines) d.here.path.text) base false names
          = reaches (.outside (rulesOf content.lines) d.here.path.text) base false names) ∧
    (d.here = base → Alike marked d root) ∧
    ((∀ s ∈ d.here, IsName s) → (base <:+ d.here → d.here = base) →
      ((∀ r ∈ rulesOf content.lines, r.pattern.namesOnly = true) → Alike marked d root) ∧
      ((∀ line ∈ content.lines.modifyHead withoutMark, isNameLine line = true) →
        Alike marked d root)) := by
  refine ⟨alike_iff_reached hRoot hOnly hFile hMark, alike_at_root hRoot hOnly hFile hMark, ?_⟩
  intro hHere hApart
  constructor
  · intro hRules
    exact alike_of_name_rules hRoot hOnly hFile hMark hRules hHere hApart
  · intro hLines
    exact alike_of_name_rules hRoot hOnly hFile hMark (namesOnly_rulesOf hLines) hHere hApart

/-! A module that lies in a directory which the root's file hides, seen from above the root. -/

def bundleTree (line : String) : Option FileTree := do
  let t ← FileTree.empty.put? [] "p" .directory
  let t ← t.put? ["p"] "dist" .directory
  let t ← t.put? ["p"] ".gitignore" (.file (.text line))
  t.put? ["dist", "p"] "bundle.ts" (.file (.text ""))

def bundle (line : String) : Disk := ⟨(bundleTree line).getD .empty, []⟩

def bundleMarked (line : String) : Disk :=
  ((bundle line).put ["p"] ".git" .directory).toOption.getD (bundle line)

/-- A rule that is tied to the root hides its directory inside of a repository and misses it
outside. -/
theorem tied_rule_needs_repository :
    (bundle "/dist\n").canonical ⟨"p"⟩ = .ok ["p"] ∧
    OnlyOwnFile (bundle "/dist\n").tree ["p"] ∧
    ((bundle "/dist\n").seenFrom ["p"]).content gitIgnoreFile = .ok (.text "/dist\n") ∧
    (bundle "/dist\n").put ["p"] ".git" .directory = .ok (bundleMarked "/dist\n") ∧
    ModuleSet.discover (bundle "/dist\n") ⟨"p"⟩ ["**/*.ts"] false
      = .ok (.ofModules ⟨"/p"⟩ [.ofText "/p/dist/bundle.ts"]) ∧
    ModuleSet.discover (bundleMarked "/dist\n") ⟨"p"⟩ ["**/*.ts"] false
      = .ok (.ofModules ⟨"/p"⟩ []) ∧
    ¬ Alike (bundleMarked "/dist\n") (bundle "/dist\n") ⟨"p"⟩ := by
  have hFilter : Glob.Filter.ofPatterns ["**/*.ts"] =
      .ok ⟨[⟨[.leading, .run, .char '.', .char 't', .char 's']⟩], []⟩ := rfl
  have hRoot : (bundle "/dist\n").canonical ⟨"p"⟩ = .ok ["p"] := by decide +kernel
  have hRoot' : (bundleMarked "/dist\n").canonical ⟨"p"⟩ = .ok ["p"] := by decide +kernel
  have hPath : Place.path ["p"] = ⟨"/p"⟩ := by decide
  have hScan : ModuleSet.scan (bundle "/dist\n") ["p"]
      ⟨[⟨[.leading, .run, .char '.', .char 't', .char 's']⟩], []⟩ false
        = [⟨"/p/dist/bundle.ts"⟩] := by decide +kernel
  have hScan' : ModuleSet.scan (bundleMarked "/dist\n") ["p"]
      ⟨[⟨[.leading, .run, .char '.', .char 't', .char 's']⟩], []⟩ false = [] := by decide +kernel
  have hOutside := discover_eq_ok hRoot hFilter false
  have hInside := discover_eq_ok hRoot' hFilter false
  rw [hScan, hPath] at hOutside
  rw [hScan', hPath] at hInside
  refine ⟨hRoot, by decide +kernel, by decide +kernel, rfl, hOutside, hInside, fun hAlike => ?_⟩
  have hSame := hAlike ["**/*.ts"] false
  rw [hInside, hOutside] at hSame
  have hMem : ModuleId.ofPath ⟨"/p/dist/bundle.ts"⟩
      ∈ (ModuleSet.ofModules ⟨"/p"⟩ (([] : List Path).map ModuleId.ofPath)).modules := by
    rw [Except.ok.inj hSame, ModuleSet.ofModules, mem_sortedDistinct]
    exact .head _
  rw [ModuleSet.ofModules, mem_sortedDistinct] at hMem
  cases hMem

theorem directory_rule_needs_no_repository :
    Alike (bundleMarked "dist/\n") (bundle "dist/\n") ⟨"p"⟩ := by
  obtain ⟨-, -, hNames⟩ := repository_leaves_answers_iff (bundle "dist/\n") (bundleMarked "dist/\n")
    ⟨"p"⟩ ["p"] (.text "dist/\n") (by decide +kernel) (by decide +kernel) (by decide +kernel) rfl
  obtain ⟨-, hLines⟩ := hNames (by decide) (by decide)
  exact hLines (by decide +kernel)

end Discovery

end ModuleAtlas
