import ModuleAtlas.Proofs.ModuleSet
import ModuleAtlas.Proofs.Run.Prefix
import ModuleAtlas.Proofs.Run.Record
import ModuleAtlas.Proofs.Walk.Order

/-!
# Runs and order

Discovery may list modules in any order and more than once, and so may a module list its
references. A run does not show it: it writes the same texts to the same places in the same order,
and it ends with the same report or fails at the same point. All that may differ is the reference
over which a strict build fails.
-/

namespace ModuleAtlas

/-- Two writes with one text to one place, or two builds that fail. -/
structure PlannedWrite.Like (w w' : PlannedWrite) : Prop where
  path : w.path = w'.path
  text : ∀ text, w.text = .ok text ↔ w'.text = .ok text

namespace Run

variable {σ : Type} {c : Config} {modules : ModuleSet} {p p' : Project}

/-- The same end, but for the reference over which a build fails. -/
inductive SameEnd {α : Type} : Except RunFailure α → Except RunFailure α → Prop
  | same (done : Except RunFailure α) : SameEnd done done
  | graph (cause cause' : Unresolved) : SameEnd (.error (.graph cause)) (.error (.graph cause'))

theorem SameEnd.ok_iff {α : Type} {done done' : Except RunFailure α} (h : SameEnd done done')
    (a : α) : done = .ok a ↔ done' = .ok a := by
  cases h with
  | same => rfl
  | graph cause cause' =>
    constructor
    · exact nofun
    · exact nofun

def SameRun {α : Type} (done done' : Except RunFailure α × σ) : Prop :=
  SameEnd done.1 done'.1 ∧ done.2 = done'.2

theorem sameRun_refl {α : Type} (done : Except RunFailure α × σ) : SameRun done done :=
  ⟨.same _, rfl⟩

theorem SameRun.next {α β : Type} {done done' : Except RunFailure α × σ} (h : SameRun done done')
    {rest rest' : α → σ → Except RunFailure β × σ}
    (hRest : ∀ a s, SameRun (rest a s) (rest' a s)) :
    SameRun (next done rest) (next done' rest') := by
  obtain ⟨first, s⟩ := done
  obtain ⟨first', s'⟩ := done'
  obtain ⟨hEnd, rfl⟩ := h
  cases hEnd with
  | same =>
    cases first with
    | ok a => exact hRest a s
    | error failure => exact sameRun_refl _
  | graph cause cause' => exact ⟨.graph cause cause', rfl⟩

theorem sameRun_write {w w' : PlannedWrite} (h : w.Like w') (sink : Sink σ) (s : σ) :
    SameRun (write sink w.path (w.text.mapError .graph) s)
      (write sink w'.path (w'.text.mapError .graph) s) := by
  obtain ⟨path, text⟩ := w
  obtain ⟨path', text'⟩ := w'
  obtain ⟨rfl, hText⟩ := h
  cases text with
  | ok text =>
    obtain rfl := (hText text).mp rfl
    exact sameRun_refl _
  | error cause =>
    cases text' with
    | ok text' => cases (hText text').mpr rfl
    | error cause' => exact ⟨.graph cause cause', rfl⟩

theorem sameRun_perform {plan plan' : List PlannedWrite}
    (h : List.Forall₂ PlannedWrite.Like plan plan') (sink : Sink σ) (s : σ) :
    SameRun (perform sink plan s) (perform sink plan' s) := by
  induction h generalizing s with
  | nil => exact sameRun_refl _
  | cons hWrite _ ih => exact (sameRun_write hWrite sink s).next fun _ s => ih s

/-! ## Plans that agree -/

theorem alike_builder (hAgrees : p.Agrees p') : (builder c modules p).Alike (builder c modules p') :=
  ⟨rfl, rfl, rfl, hAgrees⟩

theorem drawn_ok_iff {result : Except Unresolved Graph} {text : String} :
    drawn c result = .ok text ↔ ∃ g, result = .ok g ∧ Diagram.render c.fence g = text := by
  cases result with
  | ok g => simp [drawn, Except.map]
  | error cause => simp [drawn, Except.map]

theorem like_drawn {path : Path} {result result' : Except Unresolved Graph}
    (h : ∀ g, result = .ok g ↔ result' = .ok g) :
    PlannedWrite.Like ⟨path, drawn c result⟩ ⟨path, drawn c result'⟩ where
  path := rfl
  text text := by
    rw [drawn_ok_iff, drawn_ok_iff]
    simp only [h]

theorem like_entriesPlan {entries : List ModuleId}
    {outcome outcome' : ModuleId → Except Unresolved Graph}
    (h : ∀ e ∈ entries, ∀ g, outcome e = .ok g ↔ outcome' e = .ok g) :
    List.Forall₂ PlannedWrite.Like (entriesPlan c modules outcome entries)
      (entriesPlan c modules outcome' entries) := by
  apply List.rel_append
  · rw [List.forall₂_map_left_iff, List.forall₂_map_right_iff, List.forall₂_same]
    exact fun e he => like_drawn (h e he)
  · exact .cons ⟨rfl, fun _ => Iff.rfl⟩ .nil

theorem Plans.agree {plan plan' : List PlannedWrite} {report report' : Report}
    (hAgrees : p.Agrees p') (h : Plans c modules p plan report)
    (h' : Plans c modules p' plan' report') :
    report = report' ∧ List.Forall₂ PlannedWrite.Like plan plan' := by
  have hAlike : (builder c modules p).Alike (builder c modules p') := alike_builder hAgrees
  obtain ⟨hReport, ⟨result, result', hEnds, hEnds', rfl, rfl⟩ |
    ⟨entries, outcome, outcome', hEnds, hEnds', rfl, rfl⟩⟩ := h.pair h'
  · exact ⟨hReport, .cons (like_drawn (hAlike.ends_iff (fun _ => Iff.rfl) hEnds hEnds')) .nil⟩
  · refine ⟨hReport, like_entriesPlan fun e he => ?_⟩
    exact hAlike.ends_iff (fun _ => Iff.rfl) (hEnds e he) (hEnds' e he)

/-! ## Whole runs -/

/-- Without entries to draw, a run does not look at the project at all. -/
theorem ends_idle (hMode : c.mode = .entries)
    (hNone : ∀ entries, modules.select c.entryGlobs = .ok entries → entries = [])
    (sink : Sink σ) (s : σ) :
    ∃ outcome, ∀ p, Ends c modules p sink s outcome := by
  cases hSelect : modules.select c.entryGlobs with
  | error cause =>
    refine ⟨(.error (.discovery (.patterns cause)), s), fun p => ⟨0, fun steps _ => ?_⟩⟩
    rw [execute, hMode]
    dsimp only
    rw [hSelect]
  | ok entries =>
    obtain rfl := hNone entries hSelect
    refine ⟨(.ok ⟨.entries, 0, []⟩, s), fun p => ⟨0, fun steps _ => ?_⟩⟩
    rw [execute, hMode]
    dsimp only
    rw [hSelect]

theorem finite_agree (hAgrees : p.Agrees p')
    (hFinite : {m | (builder c modules p).Reaches c.transitive (roots c modules) m}.Finite) :
    {m | (builder c modules p').Reaches c.transitive (roots c modules) m}.Finite :=
  (alike_builder hAgrees).finite (fun _ => Iff.rfl) hFinite

theorem ends_agree (hAgrees : p.Agrees p')
    (hFinite : {m | (builder c modules p).Reaches c.transitive (roots c modules) m}.Finite)
    (sink : Sink σ) (s : σ) :
    ∃ outcome outcome', Ends c modules p sink s outcome ∧ Ends c modules p' sink s outcome' ∧
      SameRun outcome outcome' := by
  by_cases hSome : c.mode = .entries →
      ∃ entries, modules.select c.entryGlobs = .ok entries ∧ entries ≠ []
  · obtain ⟨plan, report, hPlans⟩ := exists_plans hFinite hSome
    obtain ⟨plan', report', hPlans'⟩ := exists_plans (finite_agree hAgrees hFinite) hSome
    obtain ⟨rfl, hLike⟩ := hPlans.agree hAgrees hPlans'
    refine ⟨_, _, hPlans.ends sink s, hPlans'.ends sink s, ?_⟩
    exact (sameRun_perform hLike sink s).next fun _ _ => sameRun_refl _
  -- Otherwise there is no plan, but the run does not get as far as the project either.
  · obtain ⟨hMode, hNone⟩ := Classical.not_imp.mp hSome
    have hNone : ∀ entries, modules.select c.entryGlobs = .ok entries → entries = [] := by
      intro entries hSelect
      by_contra hEntries
      exact hNone ⟨entries, hSelect, hEntries⟩
    obtain ⟨outcome, hEnds⟩ := ends_idle hMode hNone sink s
    exact ⟨outcome, outcome, hEnds p, hEnds p', sameRun_refl _⟩

/-- Two runs that are given the same modules and references in different orders, with different
repetitions, leave the same state behind and have written the same texts in the same order. -/
theorem run_ignores_discovery_order (c : Config) (root : Path) (paths paths' : List Path)
    (p p' : Project)
    (hPaths : ∀ m, m ∈ paths.map ModuleId.ofPath ↔ m ∈ paths'.map ModuleId.ofPath)
    (hAgrees : p.Agrees p')
    (hFinite : {m | (builder c (.ofModules root (paths.map .ofPath)) p).Reaches c.transitive
      (roots c (.ofModules root (paths.map .ofPath))) m}.Finite)
    (sink : Sink σ) (s : σ) :
    ∃ ending ending' t written,
      Ends c (.ofModules root (paths.map .ofPath)) p sink.recorded (s, []) (ending, t, written) ∧
      Ends c (.ofModules root (paths'.map .ofPath)) p' sink.recorded (s, [])
        (ending', t, written) ∧
      Ends c (.ofModules root (paths.map .ofPath)) p sink s (ending, t) ∧
      Ends c (.ofModules root (paths'.map .ofPath)) p' sink s (ending', t) ∧
      (∀ report, ending = .ok report ↔ ending' = .ok report) ∧ SameEnd ending ending' := by
  rw [← ModuleSet.ofModules_eq hPaths]
  obtain ⟨⟨ending, t, written⟩, ⟨ending', t', written'⟩, hEnds, hEnds', hEnding, hState⟩ :=
    ends_agree hAgrees hFinite sink.recorded (s, [])
  cases hState
  exact ⟨ending, ending', t, written, hEnds, hEnds', hEnds.erase, hEnds'.erase, hEnding.ok_iff,
    hEnding⟩

/-- The project with each list of references given backwards and once more. -/
def repeated (p : Project) : Project where
  references? m := (p.references? m).map fun refs => refs.reverse ++ refs
  resolve? := p.resolve?

theorem agrees_repeated (p : Project) : p.Agrees (repeated p) where
  unreadable m := by simp [repeated]
  references m refs refs' hRefs hRefs' r := by
    obtain ⟨refs'', hRefs'', rfl⟩ := Option.map_eq_some_iff.mp hRefs'
    rw [hRefs] at hRefs''
    cases hRefs''
    simp
  resolve := rfl

theorem ring_run_ignores_order : ∃ ending ending' t written,
    Ends ringConfig (.ofModules ⟨"/p"⟩ ([⟨"/p/src/a.ts"⟩, ⟨"/p/src/b.ts"⟩].map .ofPath))
      Builder.ring.toProject MemoryFiles.sink.recorded (.empty, []) (ending, t, written) ∧
    Ends ringConfig
      (.ofModules ⟨"/p"⟩ ([⟨"/p/src/b.ts"⟩, ⟨"/p/src/a.ts"⟩, ⟨"/p/src/./b.ts"⟩].map .ofPath))
      (repeated Builder.ring.toProject) MemoryFiles.sink.recorded (.empty, [])
      (ending', t, written) ∧
    SameEnd ending ending' := by
  have hPaths : ∀ m,
      m ∈ [⟨"/p/src/a.ts"⟩, ⟨"/p/src/b.ts"⟩].map ModuleId.ofPath ↔
        m ∈ [⟨"/p/src/b.ts"⟩, ⟨"/p/src/a.ts"⟩, ⟨"/p/src/./b.ts"⟩].map ModuleId.ofPath := by
    intro m
    have hSpelling : ModuleId.ofPath ⟨"/p/src/./b.ts"⟩ = ModuleId.ofPath ⟨"/p/src/b.ts"⟩ := by
      decide +kernel
    simp only [List.map_cons, List.map_nil, List.mem_cons, List.not_mem_nil, hSpelling]
    generalize ModuleId.ofPath ⟨"/p/src/a.ts"⟩ = first
    generalize ModuleId.ofPath ⟨"/p/src/b.ts"⟩ = second
    tauto
  obtain ⟨ending, ending', t, written, hEnds, hEnds', -, -, -, hEnding⟩ :=
    run_ignores_discovery_order ringConfig ⟨"/p"⟩ _ _ Builder.ring.toProject
      (repeated Builder.ring.toProject) hPaths (agrees_repeated _)
      (Builder.finite_reaches_memory rfl ..) MemoryFiles.sink .empty
  exact ⟨ending, ending', t, written, hEnds, hEnds', hEnding⟩

end Run

end ModuleAtlas
