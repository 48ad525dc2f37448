import ModuleAtlas.Proofs.Run.Kept
import ModuleAtlas.Proofs.Run.Record

/-!
# What a run writes in each mode

In entries mode each text before the manifest shows the graph of one entry and goes to the file of
that entry, in the order of the entries. In project mode there is one text for all modules in scope.
Nothing is asked of the sink here, and the project may change with every text.
-/

namespace ModuleAtlas.Run

variable {σ : Type}

/-- The text is the graph of the entry, built from the project at some state, in its file. -/
def DrawsEntry (c : Config) (modules : ModuleSet) (steps : Nat) (look : σ → Project) (e : ModuleId)
    (written : Path × String) : Prop :=
  ∃ s text, diagram c modules steps [e] (look s) = .ok text ∧
    written = (entryFile c modules e, text)

/-- How a run over entries ends, and what it has written by then. -/
inductive EndsOverEntries (c : Config) (modules : ModuleSet) (steps : Nat) (look : σ → Project)
    (entries : List ModuleId) : Except RunFailure Report → List (Path × String) → Prop
  | idle : entries = [] → EndsOverEntries c modules steps look entries (.ok ⟨.entries, 0, []⟩) []
  | complete {graphs : List (Path × String)} : entries ≠ [] →
      List.Forall₂ (DrawsEntry c modules steps look) entries graphs →
      EndsOverEntries c modules steps look entries
        (.ok ⟨.entries, entries.length, entries.map (entryFile c modules) ++ [manifestPath c]⟩)
        (graphs ++ [(manifestPath c, manifestText c modules entries)])
  | stopped {failure : RunFailure} {drawn : List ModuleId} {graphs : List (Path × String)} :
      drawn <+: entries → List.Forall₂ (DrawsEntry c modules steps look) drawn graphs →
      EndsOverEntries c modules steps look entries (.error failure) graphs

inductive EndsOverProject (c : Config) (modules : ModuleSet) (steps : Nat) (look : σ → Project) :
    Except RunFailure Report → List (Path × String) → Prop
  | complete {s : σ} {text : String} :
      diagram c modules steps (projectEntries c modules) (look s) = .ok text →
      EndsOverProject c modules steps look (.ok ⟨.project, 1, [c.outputPath]⟩) [(c.outputPath, text)]
  | stopped {failure : RunFailure} : EndsOverProject c modules steps look (.error failure) []

/-! ## Records of the steps of a run -/

section Records

variable (c : Config) (modules : ModuleSet) (steps : Nat) (look : σ → Project) (sink : Sink σ)

theorem write_recorded (path : Path) (text : Except RunFailure String) (s : σ)
    (before : List (Path × String)) :
    (∃ t s', text = .ok t ∧
      write sink.recorded path text (s, before) = (.ok (), s', before ++ [(path, t)])) ∨
    ∃ failure s', write sink.recorded path text (s, before) = (.error failure, s', before) := by
  cases text with
  | error failure => exact .inr ⟨failure, s, rfl⟩
  | ok t =>
    rw [write, next_ok, Sink.recorded]
    dsimp only
    rcases sink.write path t s with ⟨cause | _, s'⟩
    · exact .inr ⟨.write cause, s', rfl⟩
    · exact .inl ⟨t, s', rfl, rfl⟩

theorem writeEntries_cons (e : ModuleId) (entries : List ModuleId) (done : Progress) (s : σ) :
    writeEntries c modules steps look sink (e :: entries) done s =
      next (write sink (entryFile c modules e) (diagram c modules steps [e] (look s)) s) fun _ s =>
        writeEntries c modules steps look sink entries
          ⟨done.manifest ++ [manifestLine (slugOf c modules e)],
            done.outputs ++ [entryFile c modules e]⟩ s := rfl

/-- The entries are drawn one after the other, all of them or those before the first failure. -/
theorem writeEntries_recorded (entries : List ModuleId) (done : Progress) (s : σ)
    (before : List (Path × String)) :
    (∃ graphs s', List.Forall₂ (DrawsEntry c modules steps look) entries graphs ∧
      writeEntries c modules steps (fun t => look t.1) sink.recorded entries done (s, before) =
        (.ok ⟨done.manifest ++ manifestLines c modules entries,
          done.outputs ++ entries.map (entryFile c modules)⟩, s', before ++ graphs)) ∨
    ∃ failure drawn graphs s', drawn <+: entries ∧
      List.Forall₂ (DrawsEntry c modules steps look) drawn graphs ∧
      writeEntries c modules steps (fun t => look t.1) sink.recorded entries done (s, before) =
        (.error failure, s', before ++ graphs) := by
  induction entries generalizing done s before with
  | nil =>
    refine .inl ⟨[], s, .nil, ?_⟩
    simp [writeEntries, manifestLines]
  | cons e entries ih =>
    rw [writeEntries_cons]
    dsimp only
    rcases write_recorded sink (entryFile c modules e) (diagram c modules steps [e] (look s)) s
        before with
      ⟨text, t, hText, hWrite⟩ | ⟨failure, t, hWrite⟩
    · have hDraws : DrawsEntry c modules steps look e (entryFile c modules e, text) :=
        ⟨s, text, hText, rfl⟩
      rw [hWrite, next_ok]
      rcases ih _ t (before ++ [(entryFile c modules e, text)]) with
        ⟨graphs, s', hGraphs, hRest⟩ | ⟨failure, drawn, graphs, s', hDrawn, hGraphs, hRest⟩
      · refine .inl ⟨(entryFile c modules e, text) :: graphs, s', .cons hDraws hGraphs, ?_⟩
        rw [hRest]
        simp [manifestLines]
      · refine .inr ⟨failure, e :: drawn, (entryFile c modules e, text) :: graphs, s',
          List.cons_prefix_cons.mpr ⟨rfl, hDrawn⟩, .cons hDraws hGraphs, ?_⟩
        rw [hRest]
        simp
    · rw [hWrite, next_error]
      exact .inr ⟨failure, [], [], t, List.nil_prefix, .nil, by simp⟩

theorem runEntries_next (entries : List ModuleId) (s : σ) :
    runEntries c modules steps look sink entries s =
      next (writeEntries c modules steps look sink entries ⟨[manifestHeader, ""], []⟩ s) fun done s =>
        next (write sink (manifestPath c) (.ok ("\n".intercalate done.manifest)) s) fun _ s =>
          (.ok ⟨.entries, entries.length, done.outputs ++ [manifestPath c]⟩, s) := rfl

theorem runEntries_recorded {entries : List ModuleId} (hSome : entries ≠ []) (s : σ) :
    ∃ result s' written,
      runEntries c modules steps (fun t => look t.1) sink.recorded entries (s, []) =
        (result, s', written) ∧
      EndsOverEntries c modules steps look entries result written := by
  rw [runEntries_next]
  rcases writeEntries_recorded c modules steps look sink entries ⟨[manifestHeader, ""], []⟩ s [] with
    ⟨graphs, t, hGraphs, hWritten⟩ | ⟨failure, drawn, graphs, t, hDrawn, hGraphs, hWritten⟩
  · have hManifest : "\n".intercalate ([manifestHeader, ""] ++ manifestLines c modules entries) =
        manifestText c modules entries := rfl
    rw [hWritten, next_ok]
    dsimp only
    rw [hManifest]
    rcases write_recorded sink (manifestPath c) (.ok (manifestText c modules entries)) t
        ([] ++ graphs) with
      ⟨text, s', hText, hWrite⟩ | ⟨failure, s', hWrite⟩
    · cases hText
      rw [hWrite, next_ok]
      exact ⟨_, s', _, rfl, .complete hSome hGraphs⟩
    · rw [hWrite, next_error]
      exact ⟨_, s', _, rfl, .stopped (List.prefix_refl entries) hGraphs⟩
  · rw [hWritten, next_error]
    exact ⟨_, _, _, rfl, .stopped hDrawn hGraphs⟩

theorem execute_recorded (hMode : c.mode = .entries) (s : σ) :
    ∃ result s' written,
      execute c modules steps (fun t => look t.1) sink.recorded (s, []) = (result, s', written) ∧
      ((∃ cause, result = .error (.discovery cause) ∧ written = []) ∨ ∃ entries,
        modules.select c.entryGlobs = .ok entries ∧
          EndsOverEntries c modules steps look entries result written) := by
  rw [execute, hMode]
  dsimp only
  cases modules.select c.entryGlobs with
  | error cause => exact ⟨_, s, [], rfl, .inl ⟨.patterns cause, rfl, rfl⟩⟩
  | ok entries =>
    cases entries with
    | nil => exact ⟨_, s, [], rfl, .inr ⟨[], rfl, .idle rfl⟩⟩
    | cons e entries =>
      obtain ⟨result, s', written, hRecorded, hEnds⟩ :=
        runEntries_recorded c modules steps look sink (List.cons_ne_nil e entries) s
      exact ⟨result, s', written, hRecorded, .inr ⟨_, rfl, hEnds⟩⟩

theorem runProject_recorded (s : σ) :
    ∃ result s' written,
      runProject c modules steps (fun t => look t.1) sink.recorded (s, []) =
        (result, s', written) ∧
      EndsOverProject c modules steps look result written := by
  rw [runProject]
  dsimp only
  rcases write_recorded sink c.outputPath
      (diagram c modules steps (projectEntries c modules) (look s)) s [] with
    ⟨text, s', hText, hWrite⟩ | ⟨failure, s', hWrite⟩
  · rw [hWrite, next_ok]
    exact ⟨_, s', _, rfl, .complete hText⟩
  · rw [hWrite, next_error]
    exact ⟨_, s', _, rfl, .stopped⟩

end Records

/-! ## Runs over files -/

variable {c : Config}

/-- The record of a run tells how the run itself ends. -/
theorem overFiles_of_recorded {sink : Sink σ} {disk : σ → Files.Disk} {s s' : σ}
    {result : Except RunFailure Report} {written : List (Path × String)}
    (h : overFiles c (fun t => disk t.1) sink.recorded (s, []) = (result, s', written)) :
    overFiles c disk sink s = (result, s') := by
  have hRelated : RelatedEnds (fun s t => s = t.1) (overFiles c disk sink s)
      (overFiles c (fun t => disk t.1) sink.recorded (s, [])) :=
    relatedEnds_overFiles (relatedSinks_recorded sink) (fun _ _ hSame => congrArg disk hSame) rfl
  rw [h] at hRelated
  exact Prod.ext hRelated.1 hRelated.2

/-- Whatever the sink and the files are: a run in which discovery fails writes nothing, and any other
ends, and has written its texts, as is said of the modules that it finds and of the project that it
sees in the files. -/
def FromFiles (c : Config) (EndsAs : ∀ σ : Type, ModuleSet → (σ → Project) →
    Except RunFailure Report → List (Path × String) → Prop) : Prop :=
  ∀ (σ : Type) (disk : σ → Files.Disk) (sink : Sink σ) (s : σ), ∃ result s' written,
    overFiles c disk sink s = (result, s') ∧
    overFiles c (fun t => disk t.1) sink.recorded (s, []) = (result, s', written) ∧
    ((∃ cause, result = .error (.discovery cause) ∧ written = []) ∨
      ∃ modules,
        ModuleSet.discover (disk s) c.root c.scanGlobs c.includeDeclarations = .ok modules ∧
        EndsAs σ modules (fun t => (disk t).project (c.resolver (disk s) modules.root)) result
          written)

theorem fromFiles_of_execute {EndsAs : ∀ σ : Type, ModuleSet → (σ → Project) →
      Except RunFailure Report → List (Path × String) → Prop}
    (h : ∀ (σ : Type) (modules : ModuleSet) (look : σ → Project) (sink : Sink σ) (s : σ),
      ∃ result s' written,
        execute c modules stepLimit (fun t => look t.1) sink.recorded (s, []) =
          (result, s', written) ∧
        ((∃ cause, result = .error (.discovery cause) ∧ written = []) ∨
          EndsAs σ modules look result written)) : FromFiles c EndsAs := by
  intro σ disk sink s
  suffices hRecord : ∃ result s' written,
      overFiles c (fun t => disk t.1) sink.recorded (s, []) = (result, s', written) ∧ _ by
    obtain ⟨result, s', written, hRecorded, hEnds⟩ := hRecord
    exact ⟨result, s', written, overFiles_of_recorded hRecorded, hRecorded, hEnds⟩
  rw [overFiles]
  dsimp only
  cases ModuleSet.discover (disk s) c.root c.scanGlobs c.includeDeclarations with
  | error cause => exact ⟨_, s, [], rfl, .inl ⟨cause, rfl, rfl⟩⟩
  | ok modules =>
    obtain ⟨result, s', written, hRecorded, hEnds⟩ :=
      h σ modules (fun t => (disk t).project (c.resolver (disk s) modules.root)) sink s
    exact ⟨result, s', written, hRecorded, hEnds.imp_right fun hEnds => ⟨modules, rfl, hEnds⟩⟩

/-- The runs draw the entries that the patterns of the configuration select. -/
def OverEntries (c : Config) : Prop :=
  FromFiles c fun _ modules look result written => ∃ entries,
    modules.select c.entryGlobs = .ok entries ∧
    EndsOverEntries c modules stepLimit look entries result written

def OverProject (c : Config) : Prop :=
  FromFiles c fun _ modules look => EndsOverProject c modules stepLimit look

theorem overEntries_of_mode (hMode : c.mode = .entries) : OverEntries c :=
  fromFiles_of_execute fun _ modules look sink s =>
    execute_recorded c modules stepLimit look sink hMode s

theorem overProject_of_mode (hMode : c.mode = .project) : OverProject c := by
  refine fromFiles_of_execute fun σ modules look sink s => ?_
  rw [execute, hMode]
  obtain ⟨result, s', written, hRecorded, hEnds⟩ :=
    runProject_recorded c modules stepLimit look sink s
  exact ⟨result, s', written, hRecorded, .inr hEnds⟩

end ModuleAtlas.Run
