import ModuleAtlas.Proofs.Run.Order
import ModuleAtlas.Proofs.Run.Project

/-!
# Recursion over a closed set

A run in project mode starts from the modules in scope. When whatever these refer to in the project
and in scope is in the set itself, a walk that follows references further meets no other module. So
recursion does not show: the run writes the same text, or it fails over a graph in both cases.
-/

namespace ModuleAtlas

namespace Builder

variable {b : Builder} {entries : List ModuleId}

theorem mem_of_reaches_flat {m : ModuleId} (h : b.Reaches false entries m) : m ∈ entries := by
  cases h with
  | entry hMem _ => exact hMem
  | step hTransitive => cases hTransitive

theorem finite_reaches_flat : {m | b.Reaches false entries m}.Finite :=
  (List.finite_toSet entries).subset fun _ => mem_of_reaches_flat

theorem reaches_closed_iff
    (hClosed : ∀ m ∈ entries, ∀ r t, b.Follows m r → b.LeadsTo m r t → t ∈ entries)
    (m : ModuleId) : b.Reaches true entries m ↔ b.Reaches false entries m := by
  constructor
  · intro h
    induction h with
    | entry hMem hInternal => exact .entry hMem hInternal
    | @step m t r _ _ hFollows hLeads ih =>
      exact .entry (hClosed m (mem_of_reaches_flat ih) r t hFollows hLeads) hLeads.2.1
  · exact (within_refl b).reaches (fun _ => rfl) fun _ => id

end Builder

def Config.recursing (c : Config) (transitive : Bool) : Config :=
  { c with transitive? := some transitive }

namespace Run

variable {σ : Type} {c : Config} {modules : ModuleSet} {p : Project}

/-- What the modules in scope refer to in the project and in scope belongs to the set. -/
def Closed (c : Config) (modules : ModuleSet) (p : Project) : Prop :=
  ∀ m ∈ modules.modules, (builder c modules p).Internal m →
    c.scope.covers ((labeler c modules).root.normalize m.path) = true →
    ∀ r t, (builder c modules p).Follows m r → (builder c modules p).LeadsTo m r t →
      t ∈ modules.modules

theorem Closed.entries (h : Closed c modules p) :
    ∀ m ∈ projectEntries c modules, ∀ r t, (builder c modules p).Follows m r →
      (builder c modules p).LeadsTo m r t → t ∈ projectEntries c modules := by
  intro m hm r t hFollows hLeads
  obtain ⟨hMem, hInternal, hScope⟩ := (mem_projectEntries (p := p)).mp hm
  exact (mem_projectEntries (p := p)).mpr
    ⟨h m hMem hInternal hScope r t hFollows hLeads, hLeads.2⟩

theorem plans_recursing {transitive : Bool} {result : Except Unresolved Graph}
    (hMode : c.mode = .project)
    (hEnds : (builder c modules p).Ends transitive (projectEntries c modules) result) :
    Plans (c.recursing transitive) modules p (projectPlan c result)
      ⟨.project, 1, [c.outputPath]⟩ :=
  -- Recursion is no part of what the builder and the plan are made of.
  .project hMode hEnds

theorem SameEnd.graph_iff {α : Type} {done done' : Except RunFailure α} (h : SameEnd done done') :
    (∃ cause, done = .error (.graph cause)) ↔ ∃ cause, done' = .error (.graph cause) := by
  cases h with
  | same => rfl
  | graph cause cause' => exact ⟨fun _ => ⟨cause', rfl⟩, fun _ => ⟨cause, rfl⟩⟩

theorem ends_recursing (hMode : c.mode = .project) (hClosed : Closed c modules p) (sink : Sink σ)
    (s : σ) :
    ∃ outcome outcome', Ends (c.recursing true) modules p sink s outcome ∧
      Ends (c.recursing false) modules p sink s outcome' ∧ SameRun outcome outcome' := by
  have hReaches := Builder.reaches_closed_iff hClosed.entries
  have hFlat : {m | (builder c modules p).Reaches false (projectEntries c modules) m}.Finite :=
    Builder.finite_reaches_flat
  have hFinite : {m | (builder c modules p).Reaches true (projectEntries c modules) m}.Finite :=
    hFlat.subset fun m => (hReaches m).mp
  obtain ⟨result, hEnds⟩ := Builder.exists_ends hFinite
  obtain ⟨result', hEnds'⟩ := Builder.exists_ends hFlat
  have hSelf := Builder.within_refl (builder c modules p)
  have hSame : ∀ g, result = .ok g ↔ result' = .ok g := by
    intro g
    constructor
    · rintro rfl
      exact Builder.ends_ok_of_same hSelf hSelf hReaches (fun _ _ => id) hEnds hEnds'
    · rintro rfl
      exact Builder.ends_ok_of_same hSelf hSelf (fun m => (hReaches m).symm) (fun _ _ => id)
        hEnds' hEnds
  refine ⟨_, _, (plans_recursing hMode hEnds).ends sink s, (plans_recursing hMode hEnds').ends sink s,
    ?_⟩
  exact (sameRun_perform (.cons (like_drawn hSame) .nil) sink s).next fun _ _ => sameRun_refl _

/-- Over a closed set a run in project mode ends, and writes the same, whether or not references are
followed further; it fails over a graph in both cases or in neither. -/
theorem recursion_adds_nothing_to_closed_set (c : Config) (modules : ModuleSet) (p : Project)
    (hMode : c.mode = .project) (hClosed : Closed c modules p) (sink : Sink σ) (s : σ) :
    ∃ ending ending' t written,
      Ends (c.recursing true) modules p sink.recorded (s, []) (ending, t, written) ∧
      Ends (c.recursing false) modules p sink.recorded (s, []) (ending', t, written) ∧
      Ends (c.recursing true) modules p sink s (ending, t) ∧
      Ends (c.recursing false) modules p sink s (ending', t) ∧
      (∀ report, ending = .ok report ↔ ending' = .ok report) ∧
      ((∃ cause, ending = .error (.graph cause)) ↔ ∃ cause, ending' = .error (.graph cause)) ∧
      SameEnd ending ending' := by
  obtain ⟨⟨ending, t, written⟩, ⟨ending', t', written'⟩, hEnds, hEnds', hEnding, hState⟩ :=
    ends_recursing hMode hClosed sink.recorded (s, [])
  cases hState
  exact ⟨ending, ending', t, written, hEnds, hEnds', hEnds.erase, hEnds'.erase, hEnding.ok_iff,
    hEnding.graph_iff, hEnding⟩

theorem ring_closed : Closed ringProjectConfig ringModules Builder.ring.toProject := by
  intro m _ _ _ r t _ hLeads
  obtain ⟨link, hFind, rfl⟩ := Option.map_eq_some_iff.mp hLeads.1
  have hLink := List.mem_of_find?_eq_some hFind
  simp only [Builder.ring, List.mem_cons, List.not_mem_nil, or_false] at hLink
  rcases hLink with rfl | rfl
  · exact .tail _ (.head _)
  · exact .head _

theorem ring_needs_no_recursion : ∃ ending ending' t written,
    Ends (ringProjectConfig.recursing true) ringModules Builder.ring.toProject
      MemoryFiles.sink.recorded (.empty, []) (ending, t, written) ∧
    Ends (ringProjectConfig.recursing false) ringModules Builder.ring.toProject
      MemoryFiles.sink.recorded (.empty, []) (ending', t, written) ∧
    SameEnd ending ending' := by
  obtain ⟨ending, ending', t, written, hEnds, hEnds', -, -, -, -, hEnding⟩ :=
    recursion_adds_nothing_to_closed_set ringProjectConfig ringModules Builder.ring.toProject rfl
      ring_closed MemoryFiles.sink .empty
  exact ⟨ending, ending', t, written, hEnds, hEnds', hEnding⟩

end Run

end ModuleAtlas
