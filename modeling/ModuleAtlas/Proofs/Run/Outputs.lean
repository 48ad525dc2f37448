import ModuleAtlas.Proofs.Path.Place
import ModuleAtlas.Proofs.Run.Modes

/-!
# Where a run over entries writes

Whatever the files of a project are called, a run over entries writes only to files of its output
directory, with names of plain characters that end in `.md`. What a sink does with any other path
does not show. The manifest has one line for each entry, and its lines say which slugs the entries
have.
-/

namespace ModuleAtlas

namespace Slug

theorem printable_of_isFileChar {c : Char} (h : isFileChar c = true) :
    c ≠ '/' ∧ c ≠ '\\' ∧ 0x20 < c.toNat ∧ c.toNat < 0x7F := by
  refine ⟨?_, ?_, ?_⟩
  · rintro rfl
    cases h
  · rintro rfl
    cases h
  · simp only [isFileChar, Bool.or_eq_true, beq_iff_eq] at h
    rcases h with ((((h | rfl) | rfl) | rfl) | rfl) | rfl
    · have := Text.isAlphanum_cases h
      omega
    all_goals decide

end Slug

namespace Run

variable {σ : Type} (c : Config) (modules : ModuleSet)

/-- One ordinary file name of plain characters, with the extension of a diagram. -/
structure IsOutputName (name : String) : Prop where
  ordinary : Files.IsName name
  chars : ∀ ch ∈ name.toList, Slug.isFileChar ch = true
  extension : Text.endsWith name ".md" = true

/-- A file of the output directory. -/
def IsOutput (path : Path) : Prop :=
  ∃ name, IsOutputName name ∧ path = c.outputPath.join ⟨name⟩ ∧
    path.components = c.outputPath.components ++ [.name name]

/-! ## Names -/

theorem isOutputName_fileOf {slug : String} (h : ∀ ch ∈ slug.toList, Slug.isFileChar ch = true) :
    IsOutputName (fileOf slug) where
  ordinary := Files.isName_of_plain (plain_fileOf fun hSlash => Bool.false_ne_true (h _ hSlash))
  chars ch hMem := by
    rw [fileOf, String.toList_append, List.mem_append] at hMem
    rcases hMem with hSlug | hEnd
    · exact h ch hSlug
    · have hExtension : ".md".toList.all Slug.isFileChar = true := by decide
      exact List.all_eq_true.mp hExtension ch hEnd
  extension := Text.endsWith_iff.mpr ⟨slug, rfl⟩

theorem isOutput_join {name : String} (h : IsOutputName name) :
    IsOutput c (c.outputPath.join ⟨name⟩) :=
  ⟨name, h, rfl, Path.components_join h.ordinary.plain⟩

theorem isOutputName_slugOf (e : ModuleId) : IsOutputName (fileOf (slugOf c modules e)) :=
  isOutputName_fileOf fun _ => Slug.isFileChar_of_mem_ofEntry

theorem isOutput_entryFile (e : ModuleId) : IsOutput c (entryFile c modules e) :=
  isOutput_join c (isOutputName_slugOf c modules e)

theorem isOutput_manifestPath : IsOutput c (manifestPath c) := by
  have hIndex : "index".toList.all Slug.isFileChar = true := by decide
  rw [manifestPath, manifestFile_eq]
  exact isOutput_join c (isOutputName_fileOf (List.all_eq_true.mp hIndex))

/-! ## The manifest read back -/

def linesOf (text : String) : List (List Char) := text.toList.splitOn '\n'

/-- The slug between the brackets of a manifest's line. It holds no round bracket, so it ends before
the first one. -/
def listedSlug? (line : List Char) : Option String :=
  (Text.chopFront? ['-', ' ', '['] line).bind fun rest =>
    (Text.chopBack? [']'] (rest.takeWhile (· != '('))).map String.ofList

def listedSlugs (manifest : String) : List String := (linesOf manifest).filterMap listedSlug?

theorem listedSlug?_manifestLine {slug : String}
    (h : ∀ ch ∈ slug.toList, Slug.isFileChar ch = true) :
    listedSlug? (manifestLine slug).toList = some slug := by
  have hLine : (manifestLine slug).toList =
      ['-', ' ', '['] ++ ((slug.toList ++ [']']) ++ '(' :: ((fileOf slug).toList ++ [')'])) := by
    simp [manifestLine]
  have hFree : ∀ ch ∈ slug.toList ++ [']'], (ch != '(') = true := by
    intro ch hMem
    rw [bne_iff_ne]
    rintro rfl
    rcases List.mem_append.mp hMem with hSlug | hEnd
    · exact Bool.false_ne_true (h _ hSlug)
    · exact absurd hEnd (by decide)
  have hSlug : (slug.toList ++ [']'] ++ '(' :: ((fileOf slug).toList ++ [')'])).takeWhile
      (· != '(') = slug.toList ++ [']'] := by
    rw [List.takeWhile_append_of_pos hFree, List.takeWhile_cons_of_neg (by decide),
      List.append_nil]
  rw [listedSlug?, hLine, Text.chopFront?_eq_some_iff.mpr rfl, Option.bind_some, hSlug,
    Text.chopBack?_eq_some_iff.mpr rfl, Option.map_some, String.ofList_toList]

theorem break_free_manifestLine {slug : String}
    (h : ∀ ch ∈ slug.toList, Slug.isFileChar ch = true) : '\n' ∉ (manifestLine slug).toList := by
  have hSlug : '\n' ∉ slug.toList := fun hBreak => Bool.false_ne_true (h _ hBreak)
  simp [manifestLine, fileOf, hSlug]

theorem linesOf_manifestText (entries : List ModuleId) :
    linesOf (manifestText c modules entries) =
      manifestHeader.toList :: [] :: (manifestLines c modules entries).map String.toList := by
  have hBreak : "\n".toList = ['\n'] := rfl
  rw [linesOf, manifestText, String.toList_intercalate, hBreak, List.splitOn_intercalate]
  · rfl
  · intro line hLine
    simp only [List.map_cons, List.mem_cons, manifestLines, List.map_map, List.mem_map] at hLine
    rcases hLine with rfl | rfl | ⟨e, -, rfl⟩
    · decide
    · exact List.not_mem_nil
    · exact break_free_manifestLine fun _ => Slug.isFileChar_of_mem_ofEntry
  · simp

theorem listedSlugs_manifestText (entries : List ModuleId) :
    listedSlugs (manifestText c modules entries) = entries.map (slugOf c modules) := by
  have hHeader : listedSlug? manifestHeader.toList = none := by decide
  have hBlank : listedSlug? [] = none := rfl
  have hLine : ∀ e, listedSlug? (manifestLine (slugOf c modules e)).toList =
      some (slugOf c modules e) :=
    fun e => listedSlug?_manifestLine fun _ => Slug.isFileChar_of_mem_ofEntry
  rw [listedSlugs, linesOf_manifestText, List.filterMap_cons_none hHeader,
    List.filterMap_cons_none hBlank, manifestLines, List.map_map, List.filterMap_map,
    ← List.filterMap_eq_map]
  apply List.filterMap_congr
  intro e _
  rw [Function.comp_apply, Function.comp_apply, Function.comp_apply, hLine]

/-! ## Other paths do not matter -/

section Sinks

variable {c modules} {steps : Nat} {look : σ → Project} {sink sink' : Sink σ}
  (hAgree : ∀ path text s, IsOutput c path → sink'.write path text s = sink.write path text s)

include hAgree

theorem write_congr {path : Path} (hPath : IsOutput c path) (text : Except RunFailure String)
    (s : σ) : write sink' path text s = write sink path text s := by
  cases text with
  | error failure => rfl
  | ok text => rw [write, write, next_ok, next_ok, hAgree path text s hPath]

theorem writeEntries_congr (entries : List ModuleId) (done : Progress) (s : σ) :
    writeEntries c modules steps look sink' entries done s =
      writeEntries c modules steps look sink entries done s := by
  induction entries generalizing done s with
  | nil => rfl
  | cons e entries ih =>
    rw [writeEntries_cons, writeEntries_cons, write_congr hAgree (isOutput_entryFile c modules e)]
    simp only [ih]

theorem execute_congr (hMode : c.mode = .entries) (s : σ) :
    execute c modules steps look sink' s = execute c modules steps look sink s := by
  rw [execute, execute, hMode]
  dsimp only
  cases modules.select c.entryGlobs with
  | error cause => rfl
  | ok entries =>
    cases entries with
    | nil => rfl
    | cons e entries =>
      dsimp only
      rw [runEntries_next, runEntries_next, writeEntries_congr hAgree]
      simp only [write_congr hAgree (isOutput_manifestPath c)]

end Sinks

/-! ## The law of outputs -/

theorem execute_of_recorded {c : Config} {modules : ModuleSet} {steps : Nat} {look : σ → Project}
    {sink : Sink σ} {s s' : σ} {result : Except RunFailure Report} {written : List (Path × String)}
    (h : execute c modules steps (fun t => look t.1) sink.recorded (s, []) =
      (result, s', written)) :
    execute c modules steps look sink s = (result, s') := by
  have hRelated : RelatedEnds (fun s t => s = t.1) (execute c modules steps look sink s)
      (execute c modules steps (fun t => look t.1) sink.recorded (s, [])) :=
    relatedEnds_execute (relatedSinks_recorded sink) (fun _ _ hSame => congrArg look hSame) rfl
  rw [h] at hRelated
  exact Prod.ext hRelated.1 hRelated.2

section Ends

variable {c modules} {steps : Nat} {look : σ → Project} {entries : List ModuleId}
  {result : Except RunFailure Report} {written : List (Path × String)}

theorem paths_of_drawsEntry {graphs : List (Path × String)}
    (h : List.Forall₂ (DrawsEntry c modules steps look) entries graphs) :
    graphs.map Prod.fst = entries.map (entryFile c modules) := by
  induction h with
  | nil => rfl
  | cons hDraws _ ih =>
    obtain ⟨_, _, -, rfl⟩ := hDraws
    rw [List.map_cons, List.map_cons, ih]

theorem EndsOverEntries.paths (h : EndsOverEntries c modules steps look entries result written) :
    written.map Prod.fst <+: entries.map (entryFile c modules) ++ [manifestPath c] := by
  cases h with
  | idle => exact List.nil_prefix
  | complete _ hGraphs =>
    rw [List.map_append, paths_of_drawsEntry hGraphs]
    exact List.prefix_refl _
  | stopped hDrawn hGraphs =>
    rw [paths_of_drawsEntry hGraphs]
    exact (hDrawn.map _).trans (List.prefix_append ..)

theorem EndsOverEntries.isOutput (h : EndsOverEntries c modules steps look entries result written)
    {w : Path × String} (hw : w ∈ written) : IsOutput c w.1 := by
  have hPath : w.1 ∈ entries.map (entryFile c modules) ++ [manifestPath c] :=
    h.paths.subset (List.mem_map_of_mem hw)
  rcases List.mem_append.mp hPath with hEntry | hManifest
  · obtain ⟨e, -, hFile⟩ := List.mem_map.mp hEntry
    rw [← hFile]
    exact isOutput_entryFile c modules e
  · rw [List.mem_singleton.mp hManifest]
    exact isOutput_manifestPath c

theorem EndsOverEntries.of_ok {report : Report}
    (h : EndsOverEntries c modules steps look entries (.ok report) written) :
    report.graphs = entries.length ∧ report.outputs = written.map Prod.fst ∧
      (entries ≠ [] →
        report.outputs = entries.map (entryFile c modules) ++ [manifestPath c] ∧
        written.getLast? = some (manifestPath c, manifestText c modules entries)) := by
  cases h with
  | idle hNone => exact ⟨by rw [hNone]; rfl, rfl, fun hSome => absurd hNone hSome⟩
  | complete _ hGraphs =>
    refine ⟨rfl, ?_, fun _ => ⟨rfl, List.getLast?_concat⟩⟩
    rw [List.map_append, paths_of_drawsEntry hGraphs]
    rfl

end Ends

/-- A slug is a plain name, so a run over entries stays in its output directory, whatever the modules
are called: each entry has one file there, nothing else is written but the manifest, and a sink that
only differs elsewhere sees the same run. The manifest of a run that succeeds has a line for each
entry behind its first two lines and can be read back. -/
theorem entry_outputs_stay_in_directory (c : Config) (modules : ModuleSet)
    (hMode : c.mode = .entries) :
    (∀ relative sourceRoot, ∀ ch ∈ (Slug.ofEntry relative sourceRoot).toList,
      Slug.isFileChar ch = true ∧ ch ≠ '/' ∧ ch ≠ '\\' ∧ 0x20 < ch.toNat ∧ ch.toNat < 0x7F) ∧
    (∀ e, ∃ name, name = slugOf c modules e ++ ".md" ∧ IsOutputName name ∧
      entryFile c modules e = c.outputPath.join ⟨name⟩ ∧
      (entryFile c modules e).components = c.outputPath.components ++ [.name name]) ∧
    ∀ {σ : Type} (steps : Nat) (look : σ → Project) (sink : Sink σ) (s : σ),
      (∀ sink' : Sink σ, (∀ path text t, IsOutput c path →
          sink'.write path text t = sink.write path text t) →
        execute c modules steps look sink' s = execute c modules steps look sink s) ∧
      ∃ result s' written,
        execute c modules steps look sink s = (result, s') ∧
        execute c modules steps (fun t => look t.1) sink.recorded (s, []) =
          (result, s', written) ∧
        (∀ w ∈ written, IsOutput c w.1) ∧
        ∀ report, result = .ok report → report.outputs = written.map Prod.fst ∧
          ∃ entries, modules.select c.entryGlobs = .ok entries ∧
            report.graphs = entries.length ∧
            (entries ≠ [] → ∃ manifest,
              report.outputs = entries.map (entryFile c modules) ++ [manifestPath c] ∧
              written.getLast? = some (manifestPath c, manifest) ∧
              (linesOf manifest).length = 2 + entries.length ∧
              listedSlugs manifest = entries.map (slugOf c modules)) := by
  refine ⟨fun _ _ ch hMem => ?_, fun e => ?_, fun {σ} steps look sink s => ⟨?_, ?_⟩⟩
  · have hChar := Slug.isFileChar_of_mem_ofEntry hMem
    exact ⟨hChar, Slug.printable_of_isFileChar hChar⟩
  · have hName := isOutputName_slugOf c modules e
    exact ⟨_, rfl, hName, rfl, Path.components_join hName.ordinary.plain⟩
  · exact fun sink' hAgree => execute_congr hAgree hMode s
  · obtain ⟨result, s', written, hRecorded, hEnds⟩ :=
      execute_recorded c modules steps look sink hMode s
    refine ⟨result, s', written, execute_of_recorded hRecorded, hRecorded, ?_, ?_⟩
    · rcases hEnds with ⟨_, -, rfl⟩ | ⟨entries, -, hEnds⟩
      · exact fun w hw => absurd hw List.not_mem_nil
      · exact fun w hw => hEnds.isOutput hw
    · rintro report rfl
      rcases hEnds with ⟨_, hError, -⟩ | ⟨entries, hSelect, hEnds⟩
      · cases hError
      · obtain ⟨hGraphs, hOutputs, hManifest⟩ := hEnds.of_ok
        refine ⟨hOutputs, entries, hSelect, hGraphs, fun hSome => ?_⟩
        obtain ⟨hPaths, hLast⟩ := hManifest hSome
        refine ⟨_, hPaths, hLast, ?_, listedSlugs_manifestText c modules entries⟩
        rw [linesOf_manifestText, manifestLines]
        simp only [List.length_cons, List.length_map]
        omega

section Odd

/-- A name with a backslash, a line break and brackets, which starts like a step up. -/
def oddEntry : ModuleId := ⟨⟨"/p/src/..\\a\n](x).ts"⟩⟩

def oddModules : ModuleSet := ⟨⟨"/p"⟩, [oddEntry, ⟨⟨"/p/src/app/[id]/page.tsx"⟩⟩]⟩

def oddConfig : Config := { entryGlobs := ["src/**"] }

theorem odd_names_stay_inside :
    oddConfig.mode = .entries ∧
    entryFile oddConfig oddModules oddEntry = ⟨"graphs/screens/.._a_]_x_.ts.md"⟩ ∧
    IsOutputName ".._a_]_x_.ts.md" ∧
    ∃ (s' : MemoryFiles) (written : List (Path × String)) (report : Report) (manifest : String),
      execute oddConfig oddModules 1 (fun _ => MemoryProject.empty.toProject) MemoryFiles.sink
        .empty = (.ok report, s') ∧
      (∀ w ∈ written, IsOutput oddConfig w.1) ∧
      written.getLast? = some (⟨"graphs/screens/index.md"⟩, manifest) ∧
      listedSlugs manifest = [".._a_]_x_.ts", "app__[id]"] := by
  have hMode : oddConfig.mode = .entries := rfl
  obtain ⟨-, hFiles, hRuns⟩ := entry_outputs_stay_in_directory oddConfig oddModules hMode
  have hSlug : slugOf oddConfig oddModules oddEntry = ".._a_]_x_.ts" := by decide +kernel
  have hSelect : oddModules.select oddConfig.entryGlobs = .ok oddModules.modules := by
    decide +kernel
  obtain ⟨name, rfl, hName, hFile, -⟩ := hFiles oddEntry
  obtain ⟨-, result, s', written, hRun, -, hWritten, hReport⟩ :=
    hRuns 1 (fun _ => MemoryProject.empty.toProject) MemoryFiles.sink .empty
  have hEnds : (execute oddConfig oddModules 1 (fun _ => MemoryProject.empty.toProject)
      MemoryFiles.sink .empty).1.isOk = true := by decide +kernel
  rw [hRun] at hEnds
  obtain ⟨report, hOk⟩ : ∃ report, result = .ok report := by
    cases result with
    | error failure => cases hEnds
    | ok report => exact ⟨report, rfl⟩
  obtain ⟨-, entries, hSelect', -, hManifest⟩ := hReport report hOk
  rw [hSelect] at hSelect'
  cases hSelect'
  obtain ⟨manifest, -, hLast, -, hSlugs⟩ := hManifest (List.cons_ne_nil _ _)
  rw [hSlug] at hName hFile
  refine ⟨hMode, hFile, hName, s', written, report, manifest, hOk ▸ hRun, hWritten, hLast, ?_⟩
  rw [hSlugs]
  decide +kernel

end Odd

end Run

end ModuleAtlas
