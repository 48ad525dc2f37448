import ModuleAtlas.CommandLine.Program
import ModuleAtlas.Proofs.CommandLine.Options
import ModuleAtlas.Proofs.MemoryFiles
import ModuleAtlas.Proofs.Run.Record

/-!
# Printing in place of writing

Asked to print, the program shows the texts that the run writes into memory under the same
configuration, without a fence: each behind its path, in the order of writing, as far as the run
got. Nothing on the disk changes.
-/

namespace ModuleAtlas.CommandLine

open Files

/-- What is printed for a text. -/
def shown (written : Path × String) : String :=
  "%% " ++ written.1.shown ++ "\n" ++ written.2 ++ "\n\n"

/-! ## The printer and the memory -/

/-- What has been printed and what lies in memory is what has been recorded. -/
structure Shows (printed : String) (s : MemoryFiles × List (Path × String)) : Prop where
  printed : printed = String.join (s.2.map shown)
  kept : s.1 = MemoryFiles.empty.putAll s.2

theorem shows_empty : Shows "" (.empty, []) := ⟨rfl, rfl⟩

theorem relatedSinks_printer : Run.RelatedSinks Shows printer MemoryFiles.sink.recorded := by
  rintro path text printed ⟨files, written⟩ ⟨hPrinted, hKept⟩
  refine ⟨rfl, ⟨?_, ?_⟩⟩
  · change printed ++ "%% " ++ path.shown ++ "\n" ++ text ++ "\n\n" =
      String.join ((written ++ [(path, text)]).map shown)
    dsimp only at hPrinted
    rw [List.map_append, String.join_append, ← hPrinted]
    simp [shown, String.append_assoc]
  · change files.put path text = MemoryFiles.empty.putAll (written ++ [(path, text)])
    dsimp only at hKept
    rw [MemoryFiles.putAll, List.foldl_append, hKept]
    rfl

/-- The printer sees the run that writes into memory. -/
theorem exists_recorded (c : Config) (d : Disk) : ∃ result printed written,
    Run.overFiles c (fun _ => d) printer "" = (result, printed) ∧
    Run.overFiles c (fun _ => d) MemoryFiles.sink.recorded (.empty, []) =
      (result, .putAll .empty written, written) ∧
    Run.overFiles c (fun _ => d) MemoryFiles.sink .empty = (result, .putAll .empty written) ∧
    printed = String.join (written.map shown) := by
  have hPrinter : Run.RelatedEnds Shows (Run.overFiles c (fun _ => d) printer "")
      (Run.overFiles c (fun _ => d) MemoryFiles.sink.recorded (.empty, [])) :=
    Run.relatedEnds_overFiles relatedSinks_printer (fun _ _ _ => rfl) shows_empty
  have hMemory : Run.RelatedEnds (fun s t => s = t.1)
      (Run.overFiles c (fun _ => d) MemoryFiles.sink .empty)
      (Run.overFiles c (fun _ => d) MemoryFiles.sink.recorded (.empty, [])) :=
    Run.relatedEnds_overFiles (Run.relatedSinks_recorded _) (fun _ _ _ => rfl) rfl
  rcases hRun : Run.overFiles c (fun _ => d) printer "" with ⟨result, printed⟩
  rcases hRecorded : Run.overFiles c (fun _ => d) MemoryFiles.sink.recorded (.empty, []) with
    ⟨result', files, written⟩
  rcases hKept : Run.overFiles c (fun _ => d) MemoryFiles.sink .empty with ⟨result'', files'⟩
  rw [hRun, hRecorded] at hPrinter
  rw [hKept, hRecorded] at hMemory
  obtain ⟨rfl, ⟨hPrinted, hFiles⟩⟩ := hPrinter
  obtain ⟨rfl, rfl⟩ := hMemory
  dsimp only at hPrinted hFiles
  subst hFiles
  exact ⟨_, printed, written, rfl, rfl, rfl, hPrinted⟩

/-! ## The configuration -/

/-- The options without the one that asks to print. -/
def Options.toFiles (o : Options) : Options := { o with flags := o.flags.filter (· ≠ .stdout) }

theorem Options.has_toFiles {o : Options} {f : Flag} (h : f ≠ .stdout) :
    o.toFiles.has f = o.has f := by
  rw [has, has, toFiles, Bool.eq_iff_iff]
  simp [h]

theorem Options.override_toFiles {o : Options} (h : o.has .stdout = true) (c : Config) :
    o.override c = { o.toFiles.override c with fence := .bare } := by
  simp only [override, h, if_true, ne_eq, reduceCtorEq, not_false_eq_true, has_toFiles]
  rfl

/-- Asking to print changes the configuration in its fence alone. -/
theorem Options.configuration_toFiles {o : Options} (h : o.has .stdout = true) (d : Disk) :
    o.configuration d =
      (o.toFiles.configuration d).map fun c => { c with fence := .bare } := by
  have hPath : o.toFiles.configPath? d = o.configPath? d := rfl
  rw [configuration, configuration, hPath]
  cases o.configPath? d with
  | none => exact congrArg Except.ok (override_toFiles h _)
  | some path =>
    dsimp only
    cases Config.load d path with
    | error failure => rfl
    | ok c => exact congrArg Except.ok (override_toFiles h c)

/-! ## Runs of the program -/

section Run

variable {words : List String} {o : Options} {d : Disk}

theorem run_eq_print (hAccepted : Request.ofWords words = .run o) (hStdout : o.has .stdout = true)
    {c : Config} (hConfiguration : o.configuration d = .ok c) : run words d = print c d := by
  rw [run, hAccepted]
  dsimp only
  rw [hConfiguration]
  dsimp only
  rw [if_pos hStdout]

theorem run_unconfigured (hAccepted : Request.ofWords words = .run o) {texts : List String}
    (hConfiguration : o.configuration d = .error texts) : run words d = fail texts "" d := by
  rw [run, hAccepted]
  dsimp only
  rw [hConfiguration]

end Run

/-- The exit code that tells how a run ended. -/
def exitCode : Except RunFailure Report → Nat
  | .ok _ => success
  | .error _ => failure

theorem print_outcome {c : Config} {d : Disk} {result : Except RunFailure Report} {printed : String}
    (h : Run.overFiles c (fun _ => d) printer "" = (result, printed)) :
    (print c d).disk = d ∧ (print c d).stdout = printed ∧ (print c d).code = exitCode result := by
  rw [print, h]
  cases result with
  | ok report => exact ⟨rfl, rfl, rfl⟩
  | error f => exact ⟨rfl, rfl, rfl⟩

/-- No entry matched, so there is nothing to write. -/
theorem overFiles_idle {σ : Type} {c : Config} {d : Disk} {modules : ModuleSet} (sink : Sink σ)
    (s : σ) (hDiscover : ModuleSet.discover d c.root c.scanGlobs c.includeDeclarations = .ok modules)
    (hMode : c.mode = .entries) (hSelect : modules.select c.entryGlobs = .ok []) :
    Run.overFiles c (fun _ => d) sink s = (.ok ⟨.entries, 0, []⟩, s) := by
  rw [Run.overFiles, hDiscover]
  dsimp only
  rw [Run.execute, hMode]
  dsimp only
  rw [hSelect]

/-- An accepted command line that asks to print leaves the disk as it was. If there is no valid
configuration it prints nothing and fails. Otherwise the configuration is the one that counts
without the option, with no fence, and what is printed are the texts that the run under it writes
into memory, in their order and up to its first failure; the exit code tells whether it failed. -/
theorem stdout_shows_memory_run (words : List String) (o : Options) (d : Disk)
    (hAccepted : Request.ofWords words = .run o) (hStdout : "--stdout" ∈ words) :
    (run words d).disk = d ∧
    (∀ texts, o.configuration d = .error texts →
      (run words d).code = failure ∧ (run words d).stdout = "") ∧
    (∀ c, o.configuration d = .ok c →
      (∃ c₀, o.toFiles.configuration d = .ok c₀ ∧ c = { c₀ with fence := .bare }) ∧
      ∃ result written,
        Run.overFiles c (fun _ => d) MemoryFiles.sink .empty = (result, .putAll .empty written) ∧
        Run.overFiles c (fun _ => d) MemoryFiles.sink.recorded (.empty, []) =
          (result, .putAll .empty written, written) ∧
        (run words d).stdout = String.join (written.map shown) ∧
        (run words d).code = exitCode result ∧
        ∀ modules, ModuleSet.discover d c.root c.scanGlobs c.includeDeclarations = .ok modules →
          c.mode = .entries → modules.select c.entryGlobs = .ok [] →
          (run words d).stdout = "" ∧ (run words d).code = success) := by
  have hPrint : o.has .stdout = true := has_stdout_of_mem hAccepted hStdout
  cases hConfiguration : o.configuration d with
  | error texts =>
    rw [run_unconfigured hAccepted hConfiguration, fail]
    refine ⟨rfl, fun _ _ => ⟨rfl, rfl⟩, fun c hOk => ?_⟩
    cases hOk
  | ok c =>
    obtain ⟨result, printed, written, hRun, hRecorded, hMemory, hPrinted⟩ := exists_recorded c d
    obtain ⟨hDisk, hPrintedText, hCode⟩ := print_outcome hRun
    rw [run_eq_print hAccepted hPrint hConfiguration, hDisk, hPrintedText, hCode]
    refine ⟨rfl, nofun, ?_⟩
    rintro _ ⟨⟩
    refine ⟨?_, result, written, hMemory, hRecorded, hPrinted, rfl, ?_⟩
    · rw [o.configuration_toFiles hPrint] at hConfiguration
      cases hFiles : o.toFiles.configuration d with
      | error texts =>
        rw [hFiles] at hConfiguration
        cases hConfiguration
      | ok c₀ =>
        rw [hFiles] at hConfiguration
        cases hConfiguration
        exact ⟨c₀, rfl, rfl⟩
    · intro modules hDiscover hMode hSelect
      rw [overFiles_idle _ _ hDiscover hMode hSelect] at hRun
      cases hRun
      exact ⟨rfl, rfl⟩

/-! One module whose only reference leads nowhere. -/

def lonelyTree : Option FileTree := do
  let t ← FileTree.empty.put? [] "p" .directory
  let t ← t.put? ["p"] "src" .directory
  t.put? ["src", "p"] "a.ts" (.file (.text "import './b.ts';"))

def lonely : Disk := ⟨lonelyTree.getD .empty, ["p"]⟩

def lonelyWords : List String := ["--entry", "src/*", "--stdout"]

def lonelyOptions : Options := { entryGlobs := ["src/*"], flags := [.stdout] }

theorem lonely_printed : ∃ report written,
    Run.overFiles (lonelyOptions.override {}) (fun _ => lonely) MemoryFiles.sink .empty =
      (.ok report, .putAll .empty written) ∧
    String.join (written.map shown) =
      "%% graphs/screens/a.ts.md\ngraph TD\nn1[\"a\"]\n\n%% graphs/screens/index.md\n" ++
        "# Screen Dependency Graphs\n\n- [a.ts](a.ts.md)\n\n" := by
  have hConfiguration : lonelyOptions.configuration lonely = .ok (lonelyOptions.override {}) := rfl
  obtain ⟨-, -, hPrints⟩ :=
    stdout_shows_memory_run lonelyWords lonelyOptions lonely (by decide +kernel) (by decide)
  obtain ⟨-, result, written, hMemory, -, hStdout, hCode, -⟩ := hPrints _ hConfiguration
  have hSuccess : (run lonelyWords lonely).code = success := by decide +kernel
  cases result with
  | error f =>
    rw [hSuccess] at hCode
    cases hCode
  | ok report =>
    refine ⟨report, written, hMemory, ?_⟩
    rw [← hStdout]
    decide +kernel

end ModuleAtlas.CommandLine
