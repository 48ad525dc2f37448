import ModuleAtlas.Proofs.ModuleSet
import ModuleAtlas.Proofs.Run.Plan

/-!
# Runs perform a prefix of their plan

A run ends in one of three ways: with all of its plan written, at a graph that cannot be built, or
at a text that the sink rejects. In each case the writes that took effect are those that the plan
names before this point, in its order, and the sink is asked for none after it.
-/

namespace ModuleAtlas.Run

variable {σ : Type}

def planned (written : Path × String) : PlannedWrite := ⟨written.1, .ok written.2⟩

/-- The sink takes the texts one after the other. -/
inductive Accepts (sink : Sink σ) : σ → List (Path × String) → σ → Prop
  | nil {s : σ} : Accepts sink s [] s
  | cons {path : Path} {text : String} {s t s' : σ} {rest : List (Path × String)} :
      sink.write path text s = (.ok (), t) → Accepts sink t rest s' →
      Accepts sink s ((path, text) :: rest) s'

/-- The ways to carry out a plan from a state of the sink. -/
inductive CarriesOut (sink : Sink σ) (plan : List PlannedWrite) (report : Report) (s : σ) :
    Except RunFailure Report × σ → Prop
  | complete (written : List (Path × String)) {s' : σ} :
      plan = written.map planned → Accepts sink s written s' →
      CarriesOut sink plan report s (.ok report, s')
  | build (written : List (Path × String)) {path : Path} {cause : Unresolved}
      {rest : List PlannedWrite} {s' : σ} :
      plan = written.map planned ++ ⟨path, .error cause⟩ :: rest → Accepts sink s written s' →
      CarriesOut sink plan report s (.error (.graph cause), s')
  | write (written : List (Path × String)) {path : Path} {text : String}
      {rest : List PlannedWrite} {cause : WriteFailure} {t s' : σ} :
      plan = written.map planned ++ ⟨path, .ok text⟩ :: rest → Accepts sink s written t →
      sink.write path text t = (.error cause, s') →
      CarriesOut sink plan report s (.error (.write cause), s')

variable {sink : Sink σ} {plan : List PlannedWrite} {report : Report} {s s' : σ}
  {outcome : Except RunFailure Report × σ}

/-! ## Performing carries out -/

theorem write_ok {path : Path} {text : String} (h : sink.write path text s = (.ok (), s')) :
    write sink path (.ok text) s = (.ok (), s') := by
  rw [write, next_ok, h]

theorem write_error {path : Path} {text : String} {cause : WriteFailure}
    (h : sink.write path text s = (.error cause, s')) :
    write sink path (.ok text) s = (.error (.write cause), s') := by
  rw [write, next_ok, h]

theorem perform_written {written : List (Path × String)} (h : Accepts sink s written s')
    (rest : List PlannedWrite) :
    perform sink (written.map planned ++ rest) s = perform sink rest s' := by
  induction h with
  | nil => rfl
  | @cons path text _ _ _ _ hWrite _ ih =>
    rw [List.map_cons, List.cons_append, perform, planned]
    dsimp only [Except.mapError]
    rw [write_ok hWrite, next_ok, ih]

theorem CarriesOut.cons {path : Path} {text : String}
    (hWrite : sink.write path text s = (.ok (), s')) (h : CarriesOut sink plan report s' outcome) :
    CarriesOut sink (⟨path, .ok text⟩ :: plan) report s outcome := by
  cases h with
  | complete written hPlan hAccepts =>
    rw [hPlan]
    exact .complete ((path, text) :: written) rfl (.cons hWrite hAccepts)
  | build written hPlan hAccepts =>
    rw [hPlan]
    exact .build ((path, text) :: written) rfl (.cons hWrite hAccepts)
  | write written hPlan hAccepts hFails =>
    rw [hPlan]
    exact .write ((path, text) :: written) rfl (.cons hWrite hAccepts) hFails

theorem carriesOut_perform (sink : Sink σ) (plan : List PlannedWrite) (report : Report) (s : σ) :
    CarriesOut sink plan report s (reporting report (perform sink plan s)) := by
  -- The first write decides whether the run stops here or goes on with the rest of the plan.
  induction plan generalizing s with
  | nil => exact .complete [] rfl .nil
  | cons w plan ih =>
    obtain ⟨path, text⟩ := w
    cases text with
    | error cause => exact .build [] rfl .nil
    | ok text =>
      rw [perform]
      dsimp only [Except.mapError]
      rcases hWrite : sink.write path text s with ⟨_ | _, t⟩
      · rw [write_error hWrite]
        exact .write [] rfl .nil hWrite
      · rw [write_ok hWrite, next_ok]
        exact (ih t).cons hWrite

/-- How a plan can be carried out leaves nothing open: the sink decides. -/
theorem carriesOut_iff :
    CarriesOut sink plan report s outcome ↔ reporting report (perform sink plan s) = outcome := by
  constructor
  · intro h
    cases h with
    | complete written hPlan hAccepts =>
      rw [hPlan, ← List.append_nil (written.map planned), perform_written hAccepts]
      rfl
    | build written hPlan hAccepts =>
      rw [hPlan, perform_written hAccepts]
      rfl
    | write written hPlan hAccepts hFails =>
      rw [hPlan, perform_written hAccepts, perform]
      dsimp only [Except.mapError]
      rw [write_error hFails]
      rfl
  · rintro rfl
    exact carriesOut_perform sink plan report s

theorem CarriesOut.ok_iff {report' : Report} :
    CarriesOut sink plan report s (.ok report', s') ↔
      report' = report ∧ ∃ written, plan = written.map planned ∧ Accepts sink s written s' := by
  constructor
  · intro h
    cases h with
    | complete written hPlan hAccepts => exact ⟨rfl, written, hPlan, hAccepts⟩
  · rintro ⟨rfl, written, hPlan, hAccepts⟩
    exact .complete written hPlan hAccepts

/-- A run that fails has not performed the last write of its plan. -/
theorem CarriesOut.before_last {failure : RunFailure}
    (h : CarriesOut sink plan report s (.error failure, s')) :
    ∃ written t, written.map planned <+: plan.dropLast ∧ Accepts sink s written t ∧
      (s' = t ∨ ∃ path text cause, sink.write path text t = (.error cause, s')) := by
  cases h with
  | @build written path cause rest _ hPlan hAccepts =>
    refine ⟨written, s', ?_, hAccepts, .inl rfl⟩
    rw [hPlan, List.dropLast_append_cons]
    exact List.prefix_append ..
  | @write written path text rest cause t _ hPlan hAccepts hFails =>
    refine ⟨written, t, ?_, hAccepts, .inr ⟨path, text, cause, hFails⟩⟩
    rw [hPlan, List.dropLast_append_cons]
    exact List.prefix_append ..

/-! ## The law of writes -/

/-- One plan, fixed before anything is written, governs the run whatever the sink does. -/
theorem run_performs_prefix_of_plan (c : Config) (modules : ModuleSet) (p : Project)
    (hFinite : {m | (builder c modules p).Reaches c.transitive (roots c modules) m}.Finite)
    (hSome : c.mode = .entries → ∃ entries, modules.select c.entryGlobs = .ok entries ∧
      entries ≠ []) :
    (∀ root (paths : List Path), modules = .ofModules root (paths.map .ofPath) →
      ∀ entries, modules.select c.entryGlobs = .ok entries → Increasing entries) ∧
    ∃ plan report, Plans c modules p plan report ∧
      (∀ plan' report', Plans c modules p plan' report' → plan = plan' ∧ report = report') ∧
      report.outputs = plan.map PlannedWrite.path ∧
      ∀ {σ : Type} (sink : Sink σ) (s : σ),
        (∃ outcome, Ends c modules p sink s outcome) ∧
        (∀ outcome, Ends c modules p sink s outcome ↔ CarriesOut sink plan report s outcome) ∧
        (∀ report' s', Ends c modules p sink s (.ok report', s') ↔
          report' = report ∧ ∃ written, plan = written.map planned ∧ Accepts sink s written s') ∧
        ∀ failure s', Ends c modules p sink s (.error failure, s') →
          ∃ written t, written.map planned <+: plan.dropLast ∧ Accepts sink s written t ∧
            (s' = t ∨ ∃ path text cause, sink.write path text t = (.error cause, s')) := by
  refine ⟨fun root paths hModules entries hSelect => ?_, ?_⟩
  · rw [hModules] at hSelect
    exact ModuleSet.increasing_select hSelect
  obtain ⟨plan, report, hPlans⟩ := exists_plans hFinite hSome
  have hOutputs : report.outputs = plan.map PlannedWrite.path := by
    cases hPlans with
    | project => rfl
    | entries => rfl
  refine ⟨plan, report, hPlans, fun _ _ => hPlans.unique, hOutputs, fun {σ} sink s => ?_⟩
  have hIff : ∀ outcome, Ends c modules p sink s outcome ↔
      CarriesOut sink plan report s outcome := by
    intro outcome
    rw [carriesOut_iff]
    constructor
    · exact (hPlans.ends sink s).unique
    · rintro rfl
      exact hPlans.ends sink s
  refine ⟨⟨_, hPlans.ends sink s⟩, hIff, fun report' s' => ?_, fun failure s' hEnds => ?_⟩
  · rw [hIff, CarriesOut.ok_iff]
  · exact ((hIff _).mp hEnds).before_last

def ringConfig : Config := { entryGlobs := ["src/a.*"] }

def ringModules : ModuleSet := ⟨⟨"/p"⟩, [Builder.ringStart, Builder.ringEnd]⟩

theorem ring_run_carries_out : ∃ plan report outcome,
    Plans ringConfig ringModules Builder.ring.toProject plan report ∧
      report.outputs = [⟨"graphs/screens/a.ts.md"⟩, ⟨"graphs/screens/index.md"⟩] ∧
      Ends ringConfig ringModules Builder.ring.toProject MemoryFiles.sink .empty outcome ∧
      CarriesOut MemoryFiles.sink plan report .empty outcome := by
  have hSelect : ringModules.select ringConfig.entryGlobs = .ok [Builder.ringStart] := by
    decide +kernel
  obtain ⟨-, plan, report, hPlans, -, -, hRun⟩ :=
    run_performs_prefix_of_plan ringConfig ringModules Builder.ring.toProject
      (Builder.finite_reaches_memory rfl ..) fun _ => ⟨_, hSelect, by simp⟩
  obtain ⟨⟨outcome, hEnds⟩, hIff, -⟩ := hRun MemoryFiles.sink .empty
  refine ⟨plan, report, outcome, hPlans, ?_, hEnds, (hIff outcome).mp hEnds⟩
  cases hPlans with
  | project hMode => cases hMode
  | entries _ hSelect' =>
    rw [hSelect] at hSelect'
    cases hSelect'
    simp only [entriesPlan, List.map_append, List.map_cons, List.map_nil, entryWrite, manifestWrite]
    decide +kernel

end ModuleAtlas.Run
