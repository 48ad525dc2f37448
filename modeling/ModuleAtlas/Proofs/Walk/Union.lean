import ModuleAtlas.Proofs.Walk.ReachableGraph

/-!
# Builds from several entries

What is reachable from several entries is what is reachable from one of them. So a build that
shares its walk among all entries draws the union of the graphs that separate builds would draw,
although it expands a module once where they may expand it many times, and it fails exactly if one
of them does.
-/

namespace ModuleAtlas

namespace Graph

def union (graphs : List Graph) : Graph := ofParts (graphs.flatMap nodes) (graphs.flatMap edges)

theorem mem_edges_union {graphs : List Graph} (hNormal : ∀ g ∈ graphs, g.Normal) {e : Edge} :
    e ∈ (union graphs).edges ↔ ∃ g ∈ graphs, e ∈ g.edges := by
  rw [union, mem_edges_ofParts, List.mem_flatMap]
  constructor
  · exact And.left
  · rintro ⟨g, hg, he⟩
    exact ⟨⟨g, hg, he⟩, (hNormal g hg).proper e he⟩

theorem mem_nodes_union {graphs : List Graph} (hNormal : ∀ g ∈ graphs, g.Normal) {l : String} :
    l ∈ (union graphs).nodes ↔ ∃ g ∈ graphs, l ∈ g.nodes := by
  rw [union, mem_nodes_ofParts, List.mem_flatMap]
  constructor
  · rintro (hNode | ⟨e, hEdge, -, hEnd⟩)
    · exact hNode
    · obtain ⟨g, hg, he⟩ := List.mem_flatMap.mp hEdge
      obtain ⟨hSource, hTarget⟩ := (hNormal g hg).ends e he
      rcases hEnd with rfl | rfl
      · exact ⟨g, hg, hSource⟩
      · exact ⟨g, hg, hTarget⟩
  · exact .inl

end Graph

namespace Builder

variable {b : Builder} {transitive : Bool} {entries : List ModuleId}

theorem Reaches.of_entry {e m : ModuleId} (he : e ∈ entries) (h : b.Reaches transitive [e] m) :
    b.Reaches transitive entries m := by
  apply h.mono
  · intro n hn hInternal
    rw [List.mem_singleton] at hn
    exact .entry (hn ▸ he) hInternal
  · exact fun _ _ _ hTransitive hFollows hLeads => ⟨hTransitive, hFollows, hLeads⟩

theorem reaches_iff_exists {m : ModuleId} :
    b.Reaches transitive entries m ↔ ∃ e ∈ entries, b.Reaches transitive [e] m := by
  constructor
  · intro h
    induction h with
    | @entry m hMem hInternal => exact ⟨m, hMem, .entry (.head _) hInternal⟩
    | step hTransitive _ hFollows hLeads ih =>
      obtain ⟨e, he, hReach⟩ := ih
      exact ⟨e, he, .step hTransitive hReach hFollows hLeads⟩
  · rintro ⟨e, he, hReach⟩
    exact hReach.of_entry he

theorem finite_of_entry (hFinite : {m | b.Reaches transitive entries m}.Finite) {e : ModuleId}
    (he : e ∈ entries) : {m | b.Reaches transitive [e] m}.Finite :=
  hFinite.subset fun _ hReach => hReach.of_entry he

theorem exists_outcome (hFinite : {m | b.Reaches transitive entries m}.Finite) :
    ∃ outcome : ModuleId → Except Unresolved Graph,
      ∀ e ∈ entries, b.Ends transitive [e] (outcome e) := by
  have hEach : ∀ e ∈ entries, ∃ result, b.Ends transitive [e] result :=
    fun e he => exists_ends (finite_of_entry hFinite he)
  have : Nonempty (Except Unresolved Graph) := ⟨.ok .empty⟩
  choose! outcome hOutcome using hEach
  exact ⟨outcome, hOutcome⟩

theorem describes_union {graphOf : ModuleId → Graph}
    (hEach : ∀ e ∈ entries, b.Describes transitive [e] (graphOf e)) :
    b.Describes transitive entries (Graph.union (entries.map graphOf)) := by
  have hNormal : ∀ g ∈ entries.map graphOf, g.Normal := by
    intro g hg
    obtain ⟨e, he, rfl⟩ := List.mem_map.mp hg
    exact (hEach e he).normal
  refine ⟨Graph.normal_ofParts .., fun l => ?_, fun e => ?_⟩
  · rw [Graph.mem_nodes_union hNormal]
    constructor
    · rintro ⟨g, hg, hl⟩
      obtain ⟨e, he, rfl⟩ := List.mem_map.mp hg
      obtain ⟨m, hReach, hShows⟩ := ((hEach e he).nodes l).mp hl
      exact ⟨m, hReach.of_entry he, hShows⟩
    · rintro ⟨m, hReach, hShows⟩
      obtain ⟨e, he, hReach⟩ := reaches_iff_exists.mp hReach
      exact ⟨graphOf e, List.mem_map_of_mem he, ((hEach e he).nodes l).mpr ⟨m, hReach, hShows⟩⟩
  · rw [Graph.mem_edges_union hNormal]
    constructor
    · rintro ⟨g, hg, hl⟩
      obtain ⟨n, hn, rfl⟩ := List.mem_map.mp hg
      obtain ⟨m, hReach, hDraws⟩ := ((hEach n hn).edges e).mp hl
      exact ⟨m, hReach.of_entry hn, hDraws⟩
    · rintro ⟨m, hReach, hDraws⟩
      obtain ⟨n, hn, hReach⟩ := reaches_iff_exists.mp hReach
      exact ⟨graphOf n, List.mem_map_of_mem hn, ((hEach n hn).edges e).mpr ⟨m, hReach, hDraws⟩⟩

theorem error_iff_exists_error (hFinite : {m | b.Reaches transitive entries m}.Finite) :
    (∃ cause, b.Ends transitive entries (.error cause)) ↔
      ∃ e ∈ entries, ∃ cause, b.Ends transitive [e] (.error cause) := by
  rw [ends_error_iff hFinite]
  constructor
  · rintro ⟨m, r, hReach, hBlocks⟩
    obtain ⟨e, he, hReach⟩ := reaches_iff_exists.mp hReach
    exact ⟨e, he, (ends_error_iff (finite_of_entry hFinite he)).mpr ⟨m, r, hReach, hBlocks⟩⟩
  · rintro ⟨e, he, hError⟩
    obtain ⟨m, r, hReach, hBlocks⟩ := (ends_error_iff (finite_of_entry hFinite he)).mp hError
    exact ⟨m, r, hReach.of_entry he, hBlocks⟩

/-- The shared walk draws the union of the separate graphs. -/
theorem ends_union {graphOf : ModuleId → Graph}
    (hFinite : {m | b.Reaches transitive entries m}.Finite)
    (hEach : ∀ e ∈ entries, b.Ends transitive [e] (.ok (graphOf e))) :
    b.Ends transitive entries (.ok (Graph.union (entries.map graphOf))) := by
  obtain ⟨result, hEnds⟩ := exists_ends hFinite
  cases result with
  | error cause =>
    obtain ⟨e, he, cause', hError⟩ := (error_iff_exists_error hFinite).mp ⟨cause, hEnds⟩
    cases hError.unique (hEach e he)
  | ok g =>
    have hUnion := describes_union fun e he => (hEach e he).describes
    rw [hUnion.unique hEnds.describes]
    exact hEnds

end Builder

end ModuleAtlas
