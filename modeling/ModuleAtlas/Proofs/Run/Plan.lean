import ModuleAtlas.Proofs.Walk.Union
import ModuleAtlas.Run

/-!
# The plan of a run

What a run is going to write is settled by its builds, before anything is written: one text for
each graph, and in entries mode the manifest after them. A run performs this plan write by write,
although it builds each graph only when its turn comes.
-/

namespace ModuleAtlas

/-- A text and where it goes. In place of the text may stand the failure of its build. -/
structure PlannedWrite where
  path : Path
  text : Except Unresolved String

namespace Run

variable (c : Config) (modules : ModuleSet)

def drawn (result : Except Unresolved Graph) : Except Unresolved String :=
  result.map (Diagram.render c.fence)

def projectPlan (result : Except Unresolved Graph) : List PlannedWrite :=
  [⟨c.outputPath, drawn c result⟩]

def entryWrite (outcome : ModuleId → Except Unresolved Graph) (e : ModuleId) : PlannedWrite :=
  ⟨c.outputPath.join ⟨fileOf (slugOf c modules e)⟩, drawn c (outcome e)⟩

def manifestLines (entries : List ModuleId) : List String :=
  entries.map fun e => manifestLine (slugOf c modules e)

def manifestWrite (entries : List ModuleId) : PlannedWrite :=
  ⟨c.outputPath.join ⟨manifestFile⟩,
    .ok ("\n".intercalate (manifestHeader :: "" :: manifestLines c modules entries))⟩

def entriesPlan (outcome : ModuleId → Except Unresolved Graph) (entries : List ModuleId) :
    List PlannedWrite :=
  entries.map (entryWrite c modules outcome) ++ [manifestWrite c modules entries]

/-- The modules from which a run builds. -/
def roots : List ModuleId :=
  match c.mode with
  | .project => projectEntries c modules
  | .entries => (modules.select c.entryGlobs).toOption.getD []

/-- The plan of a run that has something to draw, and the report for having carried it out. -/
inductive Plans (p : Project) : List PlannedWrite → Report → Prop
  | project {result : Except Unresolved Graph} : c.mode = .project →
      (builder c modules p).Ends c.transitive (projectEntries c modules) result →
      Plans p (projectPlan c result) ⟨.project, 1, [c.outputPath]⟩
  | entries {entries : List ModuleId} {outcome : ModuleId → Except Unresolved Graph} :
      c.mode = .entries → modules.select c.entryGlobs = .ok entries → entries ≠ [] →
      (∀ e ∈ entries, (builder c modules p).Ends c.transitive [e] (outcome e)) →
      Plans p (entriesPlan c modules outcome entries)
        ⟨.entries, entries.length, (entriesPlan c modules outcome entries).map PlannedWrite.path⟩

variable {c modules} {p : Project} {σ : Type}

/-- Plans for two projects draw from the same entries. -/
theorem Plans.pair {p' : Project} {plan plan' : List PlannedWrite} {report report' : Report}
    (h : Plans c modules p plan report) (h' : Plans c modules p' plan' report') :
    report = report' ∧
      ((∃ result result',
          (builder c modules p).Ends c.transitive (projectEntries c modules) result ∧
          (builder c modules p').Ends c.transitive (projectEntries c modules) result' ∧
          plan = projectPlan c result ∧ plan' = projectPlan c result') ∨
        ∃ entries outcome outcome',
          (∀ e ∈ entries, (builder c modules p).Ends c.transitive [e] (outcome e)) ∧
          (∀ e ∈ entries, (builder c modules p').Ends c.transitive [e] (outcome' e)) ∧
          plan = entriesPlan c modules outcome entries ∧
          plan' = entriesPlan c modules outcome' entries) := by
  cases h with
  | @project result hMode hEnds =>
    cases h' with
    | @project result' _ hEnds' =>
      exact ⟨rfl, .inl ⟨result, result', hEnds, hEnds', rfl, rfl⟩⟩
    | entries hMode' =>
      rw [hMode] at hMode'
      cases hMode'
  | @entries entries outcome hMode hSelect _ hEnds =>
    cases h' with
    | project hMode' =>
      rw [hMode] at hMode'
      cases hMode'
    | @entries _ outcome' _ hSelect' _ hEnds' =>
      rw [hSelect] at hSelect'
      cases hSelect'
      refine ⟨?_, .inr ⟨entries, outcome, outcome', hEnds, hEnds', rfl, rfl⟩⟩
      simp [entriesPlan, entryWrite]

theorem Plans.unique {plan plan' : List PlannedWrite} {report report' : Report}
    (h : Plans c modules p plan report) (h' : Plans c modules p plan' report') :
    plan = plan' ∧ report = report' := by
  obtain ⟨hReport, ⟨result, result', hEnds, hEnds', rfl, rfl⟩ |
    ⟨entries, outcome, outcome', hEnds, hEnds', rfl, rfl⟩⟩ := h.pair h'
  · rw [hEnds.unique hEnds']
    exact ⟨rfl, hReport⟩
  · refine ⟨?_, hReport⟩
    rw [entriesPlan, entriesPlan, List.map_congr_left]
    intro e he
    rw [entryWrite, entryWrite, (hEnds e he).unique (hEnds' e he)]

/-! ## Performing a plan -/

section Next

variable {α β γ : Type}

@[simp] theorem next_ok (a : α) (s : σ) (rest : α → σ → Except RunFailure β × σ) :
    next (.ok a, s) rest = rest a s := rfl

@[simp] theorem next_error (failure : RunFailure) (s : σ)
    (rest : α → σ → Except RunFailure β × σ) :
    next (.error failure, s) rest = (.error failure, s) := rfl

theorem next_next (done : Except RunFailure α × σ) (rest : α → σ → Except RunFailure β × σ)
    (rest' : β → σ → Except RunFailure γ × σ) :
    next (next done rest) rest' = next done fun a s => next (rest a s) rest' := by
  obtain ⟨_ | _, s⟩ := done
  · rfl
  · rfl

end Next

/-- Hands the texts of a plan to the sink, up to the first failure. -/
def perform (sink : Sink σ) : List PlannedWrite → σ → Except RunFailure Unit × σ
  | [], s => (.ok (), s)
  | w :: plan, s =>
    next (write sink w.path (w.text.mapError .graph) s) fun _ s => perform sink plan s

def reporting (report : Report) (performed : Except RunFailure Unit × σ) :
    Except RunFailure Report × σ :=
  next performed fun _ s => (.ok report, s)

theorem perform_append (sink : Sink σ) (plan plan' : List PlannedWrite) (s : σ) :
    perform sink (plan ++ plan') s = next (perform sink plan s) fun _ s => perform sink plan' s := by
  induction plan generalizing s with
  | nil => rfl
  | cons w plan ih =>
    rw [List.cons_append, perform, perform, next_next]
    simp only [ih]

theorem perform_singleton (sink : Sink σ) (w : PlannedWrite) (s : σ) :
    perform sink [w] s = write sink w.path (w.text.mapError .graph) s := by
  rw [perform]
  obtain ⟨_ | _, s'⟩ := write sink w.path (w.text.mapError .graph) s
  · rfl
  · rfl

theorem diagram_of_build {steps : Nat} {entries : List ModuleId} {result : Except Unresolved Graph}
    (hBuild : (builder c modules p).build c.transitive steps entries = some result) :
    diagram c modules steps entries p = (drawn c result).mapError .graph := by
  rw [diagram, hBuild]
  cases result with
  | ok g => rfl
  | error cause => rfl

section Steps

variable {steps : Nat} {entries : List ModuleId} {outcome : ModuleId → Except Unresolved Graph}

theorem writeEntries_eq (sink : Sink σ) (done : Progress) (s : σ)
    (hBuilds : ∀ e ∈ entries,
      (builder c modules p).build c.transitive steps [e] = some (outcome e)) :
    writeEntries c modules steps (fun _ => p) sink entries done s =
      next (perform sink (entries.map (entryWrite c modules outcome)) s) fun _ s =>
        (.ok ⟨done.manifest ++ manifestLines c modules entries,
          done.outputs ++ (entries.map (entryWrite c modules outcome)).map PlannedWrite.path⟩,
          s) := by
  induction entries generalizing done s with
  | nil => simp [writeEntries, perform, manifestLines]
  | cons e entries ih =>
    have hRest : ∀ n ∈ entries,
        (builder c modules p).build c.transitive steps [n] = some (outcome n) :=
      fun n hn => hBuilds n (.tail _ hn)
    rw [writeEntries, List.map_cons, perform, next_next, diagram_of_build (hBuilds e (.head _))]
    simp only [ih _ _ hRest, manifestLines, entryWrite, List.map_cons, List.append_assoc,
      List.cons_append, List.nil_append]

theorem runEntries_eq (sink : Sink σ) (s : σ)
    (hBuilds : ∀ e ∈ entries,
      (builder c modules p).build c.transitive steps [e] = some (outcome e)) :
    runEntries c modules steps (fun _ => p) sink entries s =
      reporting
        ⟨.entries, entries.length, (entriesPlan c modules outcome entries).map PlannedWrite.path⟩
        (perform sink (entriesPlan c modules outcome entries) s) := by
  rw [runEntries, writeEntries_eq sink _ s hBuilds, entriesPlan, perform_append, reporting,
    next_next, next_next]
  simp only [next_ok, perform_singleton, manifestWrite, Except.mapError, List.cons_append,
    List.nil_append, List.map_append, List.map_cons, List.map_nil]

theorem runProject_eq (sink : Sink σ) (s : σ) {result : Except Unresolved Graph}
    (hBuild : (builder c modules p).build c.transitive steps (projectEntries c modules) =
      some result) :
    runProject c modules steps (fun _ => p) sink s =
      reporting ⟨.project, 1, [c.outputPath]⟩ (perform sink (projectPlan c result) s) := by
  rw [runProject, diagram_of_build hBuild, projectPlan, perform_singleton, reporting]

end Steps

/-! ## Runs -/

/-- Granted enough steps, however many, a run over an unchanging project ends like this. -/
def Ends (c : Config) (modules : ModuleSet) (p : Project) (sink : Sink σ) (s : σ)
    (outcome : Except RunFailure Report × σ) : Prop :=
  ∃ enough, ∀ steps, enough ≤ steps →
    execute c modules steps (fun _ => p) sink s = outcome

theorem Ends.unique {sink : Sink σ} {s : σ} {outcome outcome' : Except RunFailure Report × σ}
    (h : Ends c modules p sink s outcome) (h' : Ends c modules p sink s outcome') :
    outcome = outcome' := by
  obtain ⟨enough, hEnough⟩ := h
  obtain ⟨enough', hEnough'⟩ := h'
  rw [← hEnough (max enough enough') (le_max_left ..), hEnough' _ (le_max_right ..)]

theorem exists_steps {entries : List ModuleId} {outcome : ModuleId → Except Unresolved Graph}
    (hEnds : ∀ e ∈ entries, (builder c modules p).Ends c.transitive [e] (outcome e)) :
    ∃ enough, ∀ steps, enough ≤ steps → ∀ e ∈ entries,
      (builder c modules p).build c.transitive steps [e] = some (outcome e) := by
  induction entries with
  | nil => exact ⟨0, by simp⟩
  | cons e entries ih =>
    obtain ⟨enough, hFirst⟩ := hEnds e (.head _)
    obtain ⟨enough', hRest⟩ := ih fun n hn => hEnds n (.tail _ hn)
    refine ⟨max enough enough', fun steps hSteps n hn => ?_⟩
    rcases List.mem_cons.mp hn with rfl | hn
    · exact hFirst steps ((le_max_left ..).trans hSteps)
    · exact hRest steps ((le_max_right ..).trans hSteps) n hn

/-- A run performs its plan, whatever the sink does. -/
theorem Plans.ends {plan : List PlannedWrite} {report : Report} (h : Plans c modules p plan report)
    (sink : Sink σ) (s : σ) : Ends c modules p sink s (reporting report (perform sink plan s)) := by
  cases h with
  | project hMode hEnds =>
    obtain ⟨enough, hBuild⟩ := hEnds
    refine ⟨enough, fun steps hSteps => ?_⟩
    rw [execute, hMode]
    exact runProject_eq sink s (hBuild steps hSteps)
  | @entries entries outcome hMode hSelect hSome hEnds =>
    obtain ⟨enough, hBuilds⟩ := exists_steps hEnds
    refine ⟨enough, fun steps hSteps => ?_⟩
    rw [execute, hMode]
    dsimp only
    rw [hSelect]
    cases entries with
    | nil => exact (hSome rfl).elim
    | cons e entries => exact runEntries_eq sink s (hBuilds steps hSteps)

/-- Over finitely many reachable modules a run with something to draw has a plan. -/
theorem exists_plans
    (hFinite : {m | (builder c modules p).Reaches c.transitive (roots c modules) m}.Finite)
    (hSome : c.mode = .entries → ∃ entries, modules.select c.entryGlobs = .ok entries ∧
      entries ≠ []) :
    ∃ plan report, Plans c modules p plan report := by
  rw [roots] at hFinite
  cases hMode : c.mode with
  | project =>
    rw [hMode] at hFinite
    obtain ⟨result, hEnds⟩ := Builder.exists_ends hFinite
    exact ⟨_, _, .project hMode hEnds⟩
  | entries =>
    obtain ⟨entries, hSelect, hNonempty⟩ := hSome hMode
    rw [hMode, hSelect] at hFinite
    obtain ⟨outcome, hOutcome⟩ := Builder.exists_outcome hFinite
    exact ⟨_, _, .entries hMode hSelect hNonempty hOutcome⟩

end Run

end ModuleAtlas
