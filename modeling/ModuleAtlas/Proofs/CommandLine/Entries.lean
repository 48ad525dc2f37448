import ModuleAtlas.CommandLine.Program
import ModuleAtlas.Proofs.CommandLine.Options
import ModuleAtlas.Proofs.Run.Modes

/-!
# Entries on the command line

The patterns of entries that a command line gives take the place of those in the configuration file,
and entries mode follows from them, unless the file names a mode: then that mode stays, and a file
that names project mode has the patterns ignored.
-/

namespace ModuleAtlas.CommandLine

open Files

/-- The pattern that an item gives. -/
def Item.entry? : Item → Option String
  | .setting .entry pattern => some pattern
  | _ => none

/-- The patterns of entries on a command line, in their order. -/
def entryPatterns (words : List String) : List String := (items words).filterMap Item.entry?

/-- No item of the command line names a mode. -/
def LeavesMode (items : List Item) : Prop := ∀ value, Item.setting .mode value ∉ items

namespace Options

variable {o o' : Options}

theorem entryGlobs_addSetting? {value : String} {s : Setting} (h : o.addSetting? value s = some o') :
    o'.entryGlobs = o.entryGlobs ++ (Item.entry? (.setting s value)).toList := by
  cases s with
  | root | config | output =>
    obtain ⟨_, -, rfl⟩ := Option.map_eq_some_iff.mp h
    exact (List.append_nil _).symm
  | mode =>
    rw [addSetting?] at h
    split at h
    · cases h
      exact (List.append_nil _).symm
    · cases h
  | entry =>
    cases h
    rfl
  | scope =>
    cases h
    exact (List.append_nil _).symm

theorem mode?_addSetting? {value : String} {s : Setting} (hOther : s ≠ .mode)
    (h : o.addSetting? value s = some o') : o'.mode? = o.mode? := by
  cases s with
  | root | config | output =>
    obtain ⟨_, -, rfl⟩ := Option.map_eq_some_iff.mp h
    rfl
  | mode => exact (hOther rfl).elim
  | entry | scope =>
    cases h
    rfl

theorem addFlag?_keeps {f : Flag} (h : o.addFlag? f = some o') :
    o'.entryGlobs = o.entryGlobs ∧ o'.mode? = o.mode? := by
  cases f <;> (simp only [addFlag?] at h; split at h <;> cases h) <;> exact ⟨rfl, rfl⟩

end Options

/-- Reading items adds the patterns among them, and leaves the mode if none is named. -/
theorem Request.ofItems_entries {o o' : Options} {items : List Item}
    (h : Request.ofItems o items = .run o') :
    o'.entryGlobs = o.entryGlobs ++ items.filterMap Item.entry? ∧
      (LeavesMode items → o'.mode? = o.mode?) := by
  fun_induction Request.ofItems o items with
  | case1 o hBoth => cases h
  | case2 o hBoth =>
    cases h
    simp
  | case3 | case4 | case5 | case7 | case9 => cases h
  | case6 o f rest hHelp hVersion o₁ hAdd ih =>
    obtain ⟨hGlobs, hMode⟩ := ih h
    obtain ⟨hGlobsFirst, hModeFirst⟩ := Options.addFlag?_keeps hAdd
    refine ⟨?_, fun hLeaves => ?_⟩
    · rw [hGlobs, hGlobsFirst]
      rfl
    · rw [hMode fun value hValue => hLeaves value (.tail _ hValue), hModeFirst]
  | case8 o s value rest o₁ hAdd ih =>
    obtain ⟨hGlobs, hMode⟩ := ih h
    refine ⟨?_, fun hLeaves => ?_⟩
    · rw [hGlobs, Options.entryGlobs_addSetting? hAdd, List.filterMap_cons, List.append_assoc]
      cases Item.entry? (.setting s value) <;> rfl
    · have hOther : s ≠ .mode := by
        rintro rfl
        exact hLeaves value (.head _)
      rw [hMode fun value hValue => hLeaves value (.tail _ hValue),
        Options.mode?_addSetting? hOther hAdd]

/-! ## The configuration that counts -/

/-- The configuration before the options override it. -/
def Options.base (o : Options) (d : Disk) : Except ConfigFailure Config :=
  match o.configPath? d with
  | none => .ok {}
  | some path => Config.load d path

theorem Options.configuration_of_base {o : Options} {d : Disk} {c : Config} (h : o.base d = .ok c) :
    o.configuration d = .ok (o.override c) := by
  rw [base] at h
  rw [configuration]
  cases hPath : o.configPath? d with
  | none =>
    rw [hPath] at h
    cases h
    rfl
  | some path =>
    rw [hPath] at h
    dsimp only at h ⊢
    rw [h]

theorem Options.override_entries {o : Options} {c : Config} (hEntries : o.entryGlobs ≠ [])
    (hMode : o.mode? = none) :
    (o.override c).entryGlobs = o.entryGlobs ∧ (o.override c).mode = c.mode?.getD .entries := by
  have hSome : o.entryGlobs.isEmpty = false := by rwa [List.isEmpty_eq_false_iff]
  have hGlobs : (o.override c).entryGlobs = o.entryGlobs := by
    rw [override]
    dsimp only
    rw [hSome]
    rfl
  refine ⟨hGlobs, ?_⟩
  rw [Config.mode, hGlobs, hSome]
  dsimp only [override]
  rw [hMode]
  rfl

/-- A command line that gives patterns of entries and names no mode has these patterns, in their
order, take the place of those in the file, whatever else the file says. The run is over the entries
that they select, unless the file names project mode: then it draws the whole project. -/
theorem entries_count_unless_file_names_project (words : List String) (o : Options) (d : Disk)
    (file : Config) (hAccepted : Request.ofWords words = .run o)
    (hEntries : entryPatterns words ≠ []) (hMode : LeavesMode (items words))
    (hFile : o.base d = .ok file) :
    ∃ c, o.configuration d = .ok c ∧
      run words d = (if o.has .stdout then print c d else write c d) ∧
      c.entryGlobs = entryPatterns words ∧
      (c.mode = .entries ↔ file.mode? ≠ some .project) ∧
      (file.mode? ≠ some .project → Run.OverEntries c) ∧
      (file.mode? = some .project → Run.OverProject c) := by
  obtain ⟨hGlobs, hLeft⟩ := Request.ofItems_entries hAccepted
  have hGiven : o.entryGlobs = entryPatterns words := hGlobs
  have hConfiguration := o.configuration_of_base hFile
  obtain ⟨hPatterns, hCounts⟩ := Options.override_entries (c := file) (hGiven ▸ hEntries) (hLeft hMode)
  have hIff : (o.override file).mode = .entries ↔ file.mode? ≠ some .project := by
    rw [hCounts]
    rcases file.mode? with _ | _ | _ <;> simp
  refine ⟨o.override file, hConfiguration, ?_, hPatterns.trans hGiven, hIff,
    fun hNot => Run.overEntries_of_mode (hIff.mpr hNot), fun hProject => ?_⟩
  · rw [run, hAccepted]
    dsimp only
    rw [hConfiguration]
  · apply Run.overProject_of_mode
    rw [hCounts, hProject]
    rfl

/-! A module beside a configuration file. -/

section Configured

def configuredTree (text : String) : Option FileTree := do
  let t ← FileTree.empty.put? [] "p" .directory
  let t ← t.put? ["p"] configFile (.file (.text text))
  let t ← t.put? ["p"] "src" .directory
  t.put? ["src", "p"] "a.ts" (.file (.text ""))

def configured (text : String) : Disk := ⟨(configuredTree text).getD .empty, ["p"]⟩

def entryWords : List String := ["--entry", "src/*"]

def entryOptions : Options := { entryGlobs := ["src/*"] }

theorem leavesMode_entryWords : LeavesMode (items entryWords) := by
  have hItems : items entryWords = [.setting .entry "src/*"] := by decide +kernel
  rw [hItems]
  intro value hValue
  cases List.mem_singleton.mp hValue

theorem entries_replace_configured_ones : ∃ c,
    entryOptions.configuration (configured "entry_globs = ['lib/*']\nstrict = true") = .ok c ∧
    c.entryGlobs = ["src/*"] ∧ c.mode = .entries ∧ c.strict = true ∧ Run.OverEntries c := by
  have hFile : entryOptions.base (configured "entry_globs = ['lib/*']\nstrict = true") =
      .ok { entryGlobs := ["lib/*"], strict := true } := by
    decide +kernel
  obtain ⟨c, hConfiguration, -, hPatterns, hMode, hOver, -⟩ :=
    entries_count_unless_file_names_project entryWords entryOptions _ _ (by decide +kernel)
      (by decide +kernel) leavesMode_entryWords hFile
  cases (entryOptions.configuration_of_base hFile).symm.trans hConfiguration
  exact ⟨_, hConfiguration, hPatterns, hMode.mpr nofun, rfl, hOver nofun⟩

/-- The file names project mode, and the patterns are lost. -/
theorem file_mode_outlasts_entries : ∃ file c,
    Request.ofWords entryWords = .run entryOptions ∧ entryPatterns entryWords = ["src/*"] ∧
    LeavesMode (items entryWords) ∧
    entryOptions.base (configured "mode = 'project'") = .ok file ∧
    entryOptions.configuration (configured "mode = 'project'") = .ok c ∧
    c.mode = .project ∧
    (run entryWords (configured "mode = 'project'")).stdout =
      "Wrote dependency graph to ./deps.md\n" := by
  have hFile : entryOptions.base (configured "mode = 'project'") =
      .ok { mode? := some .project } := by
    decide +kernel
  exact ⟨_, _, by decide +kernel, by decide +kernel, leavesMode_entryWords, hFile,
    entryOptions.configuration_of_base hFile, rfl, by decide +kernel⟩

end Configured

end ModuleAtlas.CommandLine
