import ModuleAtlas.Proofs.Run.Prefix
import ModuleAtlas.Proofs.Walk.Strict

/-!
# Runs over a whole project

A run in project mode walks once from all modules in scope and writes one text. It might as well
build from each of these modules alone and unite the graphs: the text shows their union, and the run
fails over a graph exactly if one of the builds does, before anything is written.
-/

namespace ModuleAtlas.Run

variable {σ : Type} {c : Config} {modules : ModuleSet} {p : Project}

theorem mem_projectEntries {m : ModuleId} :
    m ∈ projectEntries c modules ↔ m ∈ modules.modules ∧ (builder c modules p).Internal m ∧
      c.scope.covers ((labeler c modules).root.normalize m.path) = true := by
  rw [projectEntries, List.mem_filter, Bool.and_eq_true, beq_iff_eq]
  rfl

theorem ends_project_ok {sink : Sink σ} {s s' : σ} {g : Graph} (hMode : c.mode = .project)
    (hEnds : (builder c modules p).Ends c.transitive (projectEntries c modules) (.ok g))
    (hWrite : sink.write c.outputPath (Diagram.render c.fence g) s = (.ok (), s')) :
    Ends c modules p sink s (.ok ⟨.project, 1, [c.outputPath]⟩, s') := by
  have hRun := (Plans.project hMode hEnds).ends sink s
  rw [projectPlan, perform_singleton, write] at hRun
  dsimp only [drawn, Except.map, Except.mapError] at hRun
  rw [next_ok, hWrite] at hRun
  exact hRun

/-- A graph that cannot be drawn ends the run before the sink is asked for anything, and no sink can
make a run fail over a graph that can be drawn. -/
theorem ends_graph_iff {sink : Sink σ} {s s' : σ} {cause : Unresolved} (hMode : c.mode = .project)
    (hFinite : {m | (builder c modules p).Reaches c.transitive (projectEntries c modules) m}.Finite) :
    Ends c modules p sink s (.error (.graph cause), s') ↔ s' = s ∧
      (builder c modules p).Ends c.transitive (projectEntries c modules) (.error cause) := by
  obtain ⟨result, hEnds⟩ := Builder.exists_ends hFinite
  have hRun := (Plans.project hMode hEnds).ends sink s
  rw [projectPlan, perform_singleton, write] at hRun
  cases result with
  | error cause' =>
    have hStopped : Ends c modules p sink s (.error (.graph cause'), s) := hRun
    constructor
    · intro hFails
      cases hFails.unique hStopped
      exact ⟨rfl, hEnds⟩
    · rintro ⟨rfl, hError⟩
      cases hError.unique hEnds
      exact hStopped
  | ok g =>
    dsimp only [drawn, Except.map, Except.mapError] at hRun
    rw [next_ok] at hRun
    constructor
    · intro hFails
      have hSame := hFails.unique hRun
      rcases hWrite : sink.write c.outputPath (Diagram.render c.fence g) s with ⟨_ | _, t⟩
      · rw [hWrite] at hSame
        cases hSame
      · rw [hWrite] at hSame
        cases hSame
    · rintro ⟨-, hError⟩
      cases hError.unique hEnds

/-- Every node stands for a module of the project in scope, or for a specifier shown as it is. -/
theorem node_origin {g : Graph}
    (h : (builder c modules p).Describes c.transitive (projectEntries c modules) g) {l : String}
    (hl : l ∈ g.nodes) :
    (∃ m, (builder c modules p).Internal m ∧
      c.scope.covers ((labeler c modules).root.normalize m.path) = true ∧
      (labeler c modules).label m.path = l) ∨
    (c.includeExternal = true ∧ ∃ m r, (builder c modules p).Reaches c.transitive
      (projectEntries c modules) m ∧ (builder c modules p).Follows m r ∧ r.specifier = l) := by
  have hCovered : ∀ m, (builder c modules p).Reaches c.transitive (projectEntries c modules) m →
      (builder c modules p).Internal m ∧
        c.scope.covers ((labeler c modules).root.normalize m.path) = true := by
    intro m hReach
    refine ⟨hReach.internal, ?_⟩
    rcases hReach.entry_or_covered with hEntry | hScope
    · exact (mem_projectEntries (p := p).mp hEntry).2.2
    · exact hScope
  rcases (Builder.mem_nodes_iff h l).mp hl with ⟨m, hReach, hLabel⟩ |
    ⟨m, r, t, -, -, hLeads, hLabel⟩ | ⟨hExternal, m, r, hReach, hFollows, -, hLabel⟩
  · exact .inl ⟨m, (hCovered m hReach).1, (hCovered m hReach).2, hLabel⟩
  · exact .inl ⟨t, hLeads.2.1, hLeads.2.2, hLabel⟩
  · exact .inr ⟨hExternal, m, r, hReach, hFollows, hLabel⟩

/-- The graph of a project is the union of the graphs of its modules in scope, each built alone. -/
theorem project_graph_is_union (c : Config) (modules : ModuleSet) (p : Project)
    (hMode : c.mode = .project)
    (hFinite : {m | (builder c modules p).Reaches c.transitive (projectEntries c modules) m}.Finite) :
    (∀ m, m ∈ projectEntries c modules ↔ m ∈ modules.modules ∧ (builder c modules p).Internal m ∧
      c.scope.covers ((labeler c modules).root.normalize m.path) = true) ∧
    ∃ outcome : ModuleId → Except Unresolved Graph,
      (∀ m ∈ projectEntries c modules,
        (builder c modules p).Ends c.transitive [m] (outcome m)) ∧
      (∀ {σ : Type} (sink : Sink σ) (s : σ),
        ((∃ cause s', Ends c modules p sink s (.error (.graph cause), s')) ↔
          ∃ m ∈ projectEntries c modules, ∃ cause, outcome m = .error cause) ∧
        ∀ cause s', Ends c modules p sink s (.error (.graph cause), s') → s' = s) ∧
      ∀ graphOf : ModuleId → Graph,
        (∀ m ∈ projectEntries c modules, outcome m = .ok (graphOf m)) →
        ∃ g, g = Graph.ofParts ((projectEntries c modules).flatMap fun m => (graphOf m).nodes)
            ((projectEntries c modules).flatMap fun m => (graphOf m).edges) ∧
          (∀ {σ : Type} (sink : Sink σ) (s s' : σ),
            sink.write c.outputPath (Diagram.render c.fence g) s = (.ok (), s') →
            Ends c modules p sink s (.ok ⟨.project, 1, [c.outputPath]⟩, s')) ∧
          (∀ m ∈ projectEntries c modules, (∀ l ∈ (graphOf m).nodes, l ∈ g.nodes) ∧
            ∀ e ∈ (graphOf m).edges, e ∈ g.edges) ∧
          ∀ l ∈ g.nodes,
            (∃ m, (builder c modules p).Internal m ∧
              c.scope.covers ((labeler c modules).root.normalize m.path) = true ∧
              (labeler c modules).label m.path = l) ∨
            (c.includeExternal = true ∧ ∃ m r, (builder c modules p).Reaches c.transitive
              (projectEntries c modules) m ∧ (builder c modules p).Follows m r ∧
              r.specifier = l) := by
  obtain ⟨outcome, hOutcome⟩ := Builder.exists_outcome hFinite
  refine ⟨fun m => mem_projectEntries, outcome, hOutcome, fun {σ} sink s => ⟨?_, ?_⟩, ?_⟩
  · have hFails : (∃ cause s', Ends c modules p sink s (.error (.graph cause), s')) ↔
        ∃ cause, (builder c modules p).Ends c.transitive (projectEntries c modules)
          (.error cause) := by
      simp only [ends_graph_iff hMode hFinite, exists_eq_left]
    rw [hFails, Builder.error_iff_exists_error hFinite]
    constructor
    · rintro ⟨m, hm, cause, hError⟩
      exact ⟨m, hm, cause, (hOutcome m hm).unique hError⟩
    · rintro ⟨m, hm, cause, hError⟩
      exact ⟨m, hm, cause, hError ▸ hOutcome m hm⟩
  · intro cause s' hFails
    exact ((ends_graph_iff hMode hFinite).mp hFails).1
  · intro graphOf hGraphs
    have hEach : ∀ m ∈ projectEntries c modules,
        (builder c modules p).Ends c.transitive [m] (.ok (graphOf m)) :=
      fun m hm => hGraphs m hm ▸ hOutcome m hm
    have hUnion := Builder.ends_union hFinite hEach
    have hNormal : ∀ g ∈ (projectEntries c modules).map graphOf, g.Normal := by
      intro g hg
      obtain ⟨m, hm, rfl⟩ := List.mem_map.mp hg
      exact (hEach m hm).describes.normal
    refine ⟨Graph.union ((projectEntries c modules).map graphOf), ?_,
      fun sink s s' hWrite => ends_project_ok hMode hUnion hWrite, fun m hm => ⟨?_, ?_⟩,
      fun l hl => node_origin hUnion.describes hl⟩
    · rw [Graph.union, List.flatMap_map, List.flatMap_map]
    · intro l hl
      exact (Graph.mem_nodes_union hNormal).mpr ⟨graphOf m, List.mem_map_of_mem hm, hl⟩
    · intro e he
      exact (Graph.mem_edges_union hNormal).mpr ⟨graphOf m, List.mem_map_of_mem hm, he⟩

def ringProjectConfig : Config := {}

theorem ring_graph_is_union : ∃ graphOf : ModuleId → Graph,
    (∀ m ∈ [Builder.ringStart, Builder.ringEnd],
      (builder ringProjectConfig ringModules Builder.ring.toProject).Ends false [m]
        (.ok (graphOf m))) ∧
    Ends ringProjectConfig ringModules Builder.ring.toProject MemoryFiles.sink .empty
      (.ok ⟨.project, 1, [⟨"deps.md"⟩]⟩, MemoryFiles.empty.put ⟨"deps.md"⟩
        (Diagram.render .markdown (.ofParts
          ((graphOf Builder.ringStart).nodes ++ (graphOf Builder.ringEnd).nodes)
          ((graphOf Builder.ringStart).edges ++ (graphOf Builder.ringEnd).edges)))) := by
  have hEntries : projectEntries ringProjectConfig ringModules =
      [Builder.ringStart, Builder.ringEnd] := by
    decide +kernel
  obtain ⟨-, outcome, hOutcome, -, hUnion⟩ := project_graph_is_union ringProjectConfig ringModules
    Builder.ring.toProject rfl (Builder.finite_reaches_memory rfl ..)
  have hEach : ∀ m, ∃ g, m ∈ projectEntries ringProjectConfig ringModules → outcome m = .ok g := by
    intro m
    obtain ⟨g, hLenient⟩ := Builder.lenient_ends
      (b := builder ringProjectConfig ringModules Builder.ring.toProject)
      (Builder.finite_reaches_memory rfl false [m])
    exact ⟨g, fun hm => (hOutcome m hm).unique hLenient⟩
  choose graphOf hGraphs using hEach
  obtain ⟨g, hGraph, hRun, -⟩ := hUnion graphOf hGraphs
  refine ⟨graphOf, fun m hm => ?_, ?_⟩
  · rw [← hEntries] at hm
    exact hGraphs m hm ▸ hOutcome m hm
  · rw [hEntries] at hGraph
    have hWritten := hRun MemoryFiles.sink .empty _ rfl
    simp only [hGraph, List.flatMap_cons, List.flatMap_nil, List.append_nil] at hWritten
    exact hWritten

end ModuleAtlas.Run
