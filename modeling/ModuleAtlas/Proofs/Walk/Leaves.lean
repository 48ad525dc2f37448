import ModuleAtlas.Proofs.Walk.ReachableGraph

/-!
# Leaves

A reference that leads outside the project is shown as a node that goes by its specifier. A walk
never enters what such a reference stands for. But the graph knows nodes by their text alone, so
the edges of a module whose label is that same text leave the same node.
-/

namespace ModuleAtlas.Builder

variable {b : Builder} {transitive : Bool} {entries : List ModuleId}

/-- The text by which a reachable module refers to something outside the project. -/
def NamesOutside (b : Builder) (transitive : Bool) (entries : List ModuleId) (l : String) : Prop :=
  ∃ m r, b.Reaches transitive entries m ∧ b.Follows m r ∧ b.LeadsOut m r ∧ r.specifier = l

/-- What a reference that leads outside stands for is not a module of the project. -/
theorem LeadsOut.not_internal {m t : ModuleId} {r : Reference} (h : b.LeadsOut m r)
    (hResolve : b.project.resolve? m r.specifier = some t) : ¬ b.Internal t := by
  rcases h with hNone | ⟨t', hResolve', hExternal⟩
  · rw [hNone] at hResolve
    cases hResolve
  · rw [hResolve'] at hResolve
    cases hResolve
    intro hInternal
    rw [Internal, hExternal] at hInternal
    cases hInternal

theorem LeadsOut.not_reaches {m t : ModuleId} {r : Reference} (h : b.LeadsOut m r)
    (hResolve : b.project.resolve? m r.specifier = some t) : ¬ b.Reaches transitive entries t :=
  fun hReach => h.not_internal hResolve hReach.internal

theorem Describes.edge_of_namesake {g : Graph} (h : b.Describes transitive entries g) {e : Edge}
    (hEdge : e ∈ g.edges) :
    ∃ n, b.Reaches transitive entries n ∧ b.labeler.label n.path = e.source ∧ b.Draws n e := by
  obtain ⟨n, hReach, hDraws⟩ := (h.edges e).mp hEdge
  exact ⟨n, hReach, hDraws.1.symm, hDraws⟩

theorem Describes.leaves_iff {g : Graph} (h : b.Describes transitive entries g) (P : String → Prop) :
    (∀ l, P l → ∀ e ∈ g.edges, e.source ≠ l) ↔
      ∀ n, b.Reaches transitive entries n → P (b.labeler.label n.path) → ∀ e, ¬ b.Draws n e := by
  constructor
  · intro hLeaves n hReach hNames e hDraws
    exact hLeaves _ hNames e ((h.edges e).mpr ⟨n, hReach, hDraws⟩) hDraws.1
  · rintro hSilent l hNames e hEdge rfl
    obtain ⟨n, hReach, hLabel, hDraws⟩ := h.edge_of_namesake hEdge
    rw [← hLabel] at hNames
    exact hSilent n hReach hNames e hDraws

/-- Every name from outside is a node, and what it stands for is never entered: an edge out of that
node is always one that a module of the project draws, namely one whose label is the same text. So
all names from outside are leaves exactly if no reachable module with such a label draws an edge. -/
theorem leaves_iff_namesakes_draw_nothing (b : Builder) (transitive : Bool) (steps : Nat)
    (entries : List ModuleId) (g : Graph) (hExternal : b.options.includeExternal = true)
    (hBuild : b.build transitive steps entries = some (.ok g)) :
    (∀ l, b.NamesOutside transitive entries l → l ∈ g.nodes) ∧
    (∀ m r t, b.Reaches transitive entries m → b.LeadsOut m r →
      b.project.resolve? m r.specifier = some t → ¬ b.Reaches transitive entries t) ∧
    (∀ e ∈ g.edges, b.NamesOutside transitive entries e.source →
      ∃ n, b.Reaches transitive entries n ∧ b.labeler.label n.path = e.source ∧ b.Draws n e) ∧
    ((∀ m r, b.Reaches transitive entries m → b.Follows m r → b.LeadsOut m r →
        ∀ e ∈ g.edges, e.source ≠ r.specifier) ↔
      ∀ n, b.Reaches transitive entries n →
        b.NamesOutside transitive entries (b.labeler.label n.path) → ∀ e, ¬ b.Draws n e) := by
  have hDescribes := (build_ok hBuild).1
  refine ⟨?_, fun m r t _ hOut hResolve => hOut.not_reaches hResolve,
    fun e hEdge _ => hDescribes.edge_of_namesake hEdge, ?_⟩
  · rintro l ⟨m, r, hReach, hFollows, hOut, hSpecifier⟩
    exact (mem_nodes_iff hDescribes l).mpr
      (.inr (.inr ⟨hExternal, m, r, hReach, hFollows, hOut, hSpecifier⟩))
  · rw [← hDescribes.leaves_iff]
    constructor
    · rintro hLeaves l ⟨m, r, hReach, hFollows, hOut, rfl⟩
      exact hLeaves m r hReach hFollows hOut
    · intro hLeaves m r hReach hFollows hOut
      exact hLeaves _ ⟨m, r, hReach, hFollows, hOut, rfl⟩

theorem ring_reaches_cases {m : ModuleId} (h : ringBuilder.Reaches true [ringStart] m) :
    m = ringStart ∨ m = ringEnd := by
  cases h with
  | entry hMem _ => exact .inl (List.mem_singleton.mp hMem)
  | @step n _ r _ _ _ hLeads =>
    obtain ⟨link, hFind, rfl⟩ := Option.map_eq_some_iff.mp hLeads.1
    have hLink := List.mem_of_find?_eq_some hFind
    simp only [ring, List.mem_cons, List.not_mem_nil, or_false] at hLink
    rcases hLink with rfl | rfl
    · exact .inr rfl
    · exact .inl rfl

theorem ring_keeps_leaf : ∃ g, ringBuilder.build true 3 [ringStart] = some (.ok g) ∧
    ringBuilder.NamesOutside true [ringStart] "react" ∧ ∀ e ∈ g.edges, e.source ≠ "react" := by
  have hBuild : ∃ g, ringBuilder.build true 3 [ringStart] = some (.ok g) := ⟨_, rfl⟩
  obtain ⟨g, hBuild⟩ := hBuild
  have hNames : ringBuilder.NamesOutside true [ringStart] "react" :=
    ⟨ringEnd, _, ring_reaches_end, ⟨_, rfl, .tail _ (.head _), by decide⟩, .inl (by decide), rfl⟩
  obtain ⟨-, -, hNamesake, -⟩ :=
    leaves_iff_namesakes_draw_nothing ringBuilder true 3 [ringStart] g rfl hBuild
  refine ⟨g, hBuild, hNames, ?_⟩
  intro e hEdge hSource
  obtain ⟨n, hReach, hLabel, -⟩ := hNamesake e hEdge (hSource.symm ▸ hNames)
  rw [hSource] at hLabel
  rcases ring_reaches_cases hReach with rfl | rfl
  · exact absurd hLabel (by decide +kernel)
  · exact absurd hLabel (by decide +kernel)

section Bus

def busMain : ModuleId := ⟨⟨"/p/src/main.ts"⟩⟩

def busEvents : ModuleId := ⟨⟨"/p/src/events.ts"⟩⟩

def busCore : ModuleId := ⟨⟨"/p/src/bus.ts"⟩⟩

/-- A module that uses a package and a module of the project which goes by the same name. -/
def bus : MemoryProject where
  modules := [(busMain, [⟨"events", .static, false⟩, ⟨"./events", .static, false⟩]),
    (busEvents, [⟨"./bus", .static, false⟩])]
  links := [⟨busMain, "./events", busEvents⟩, ⟨busEvents, "./bus", busCore⟩]

def busBuilder : Builder :=
  ⟨.ofSourceRoot (.ofPath ⟨"/p"⟩) "src/", .ofSettings [] "src/", ⟨true, false, false⟩,
    bus.toProject⟩

theorem bus_package_imports_module : ∃ g, busBuilder.build true 3 [busMain] = some (.ok g) ∧
    ∃ m r, busBuilder.Reaches true [busMain] m ∧ busBuilder.Follows m r ∧
      busBuilder.LeadsOut m r ∧ ∃ e ∈ g.edges, e.source = r.specifier := by
  have hMain : busBuilder.Reaches true [busMain] busMain := .entry (.head _) (by
    unfold Internal
    decide +kernel)
  refine ⟨_, rfl, busMain, ⟨"events", .static, false⟩, hMain, ⟨_, rfl, .head _, by decide⟩,
    .inl (by decide), ⟨"events", "bus"⟩, ?_, rfl⟩
  rw [Draft.toGraph, Graph.mem_edges_ofParts]
  decide +kernel

end Bus

end ModuleAtlas.Builder
