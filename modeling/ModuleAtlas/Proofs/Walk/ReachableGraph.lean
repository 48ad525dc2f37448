import ModuleAtlas.Proofs.Walk.Ending

/-!
# The graph of the reachable modules

A build that succeeds shows each reachable module and whatever its references point to, and nothing
else. This fixes the graph, so it depends neither on the order in which a walk finds the modules nor
on how often it meets them. A build that fails names a reference of a reachable module.
-/

namespace ModuleAtlas.Builder

variable {b : Builder} {transitive : Bool} {entries : List ModuleId}

/-- The graph in normal form that the reachable modules and their references make up. -/
structure Describes (b : Builder) (transitive : Bool) (entries : List ModuleId) (g : Graph) :
    Prop where
  normal : g.Normal
  nodes : ∀ l, l ∈ g.nodes ↔ ∃ m, b.Reaches transitive entries m ∧ b.Shows m l
  edges : ∀ e, e ∈ g.edges ↔ ∃ m, b.Reaches transitive entries m ∧ b.Draws m e

theorem Describes.unique {g g' : Graph} (h : b.Describes transitive entries g)
    (h' : b.Describes transitive entries g') : g = g' := by
  apply h.normal.ext h'.normal
  · intro l
    rw [h.nodes, h'.nodes]
  · intro e
    rw [h.edges, h'.edges]

theorem Draws.shows {m : ModuleId} {e : Edge} (h : b.Draws m e) :
    b.Shows m e.source ∧ b.Shows m e.target :=
  let ⟨hSource, _, hTarget⟩ := h
  ⟨.inl hSource, .inr hTarget⟩

/-- The invariant of a walk with nothing left to do, read off the finished graph. -/
theorem describes_toGraph {t : Traversal} (h : b.Invariant transitive entries [] t)
    (hExpanded : ∀ m, m ∈ t.expanded ↔ b.Reaches transitive entries m) :
    b.Describes transitive entries t.draft.toGraph where
  normal := Graph.normal_ofParts ..
  nodes l := by
    rw [Draft.toGraph, Graph.mem_nodes_ofParts, h.labels]
    simp only [hExpanded]
    constructor
    · rintro (hShown | ⟨e, hEdge, -, hEnd⟩)
      · exact hShown
      · obtain ⟨m, hMem, hDraws⟩ := (h.edges e).mp hEdge
        obtain ⟨hSource, hTarget⟩ := hDraws.shows
        rcases hEnd with rfl | rfl
        · exact ⟨m, (hExpanded m).mp hMem, hSource⟩
        · exact ⟨m, (hExpanded m).mp hMem, hTarget⟩
    · exact .inl
  edges e := by
    rw [Draft.toGraph, Graph.mem_edges_ofParts, h.edges]
    simp only [hExpanded]
    constructor
    · exact And.left
    · rintro ⟨m, hReach, hDraws⟩
      exact ⟨⟨m, hReach, hDraws⟩, hDraws.2.1⟩

section Build

variable {steps : Nat}

theorem build_ok {g : Graph} (h : b.build transitive steps entries = some (.ok g)) :
    b.Describes transitive entries g ∧
      ∀ m, b.Reaches transitive entries m → ∀ r, ¬ b.Blocks m r := by
  have hSound := b.traverse_sound transitive steps entries
  rw [build] at h
  cases hEnd : b.traverse transitive steps entries with
  | done t =>
    have hExpanded := mem_expanded_iff hEnd
    rw [hEnd] at h hSound
    cases h
    exact ⟨describes_toGraph hSound.1 hExpanded,
      fun m hReach => hSound.1.clear m ((hExpanded m).mpr hReach)⟩
  | failed cause t =>
    rw [hEnd] at h
    cases h
  | unfinished =>
    rw [hEnd] at h
    cases h

theorem build_error {cause : Unresolved} (h : b.build transitive steps entries = some (.error cause)) :
    ∃ m r, b.Reaches transitive entries m ∧ b.Blocks m r ∧ cause = ⟨m, r.specifier⟩ := by
  have hSound := b.traverse_sound transitive steps entries
  rw [build] at h
  cases hEnd : b.traverse transitive steps entries with
  | done t =>
    rw [hEnd] at h
    cases h
  | failed cause' t =>
    rw [hEnd] at h hSound
    cases h
    exact hSound
  | unfinished =>
    rw [hEnd] at h
    cases h

end Build

theorem ends_of_traverse {steps : Nat} {t : Traversal} {g : Graph}
    (h : b.traverse transitive steps entries = .done t) (hNormal : g.Normal)
    (hLabels : t.draft.labels.Perm g.nodes) (hEdges : t.draft.edges.Perm g.edges) :
    b.Ends transitive entries (.ok g) := by
  apply ends_of_build
  rw [build, h, ← hNormal.ofParts_eq (fun _ => hLabels.mem_iff) fun _ => hEdges.mem_iff]
  rfl

theorem Ends.describes {g : Graph} (h : b.Ends transitive entries (.ok g)) :
    b.Describes transitive entries g :=
  let ⟨_, hBuild⟩ := h.exists_build
  (build_ok hBuild).1

theorem Ends.not_blocks {g : Graph} (h : b.Ends transitive entries (.ok g)) {m : ModuleId}
    (hReach : b.Reaches transitive entries m) (r : Reference) : ¬ b.Blocks m r :=
  let ⟨_, hBuild⟩ := h.exists_build
  (build_ok hBuild).2 m hReach r

theorem Ends.culprit {cause : Unresolved} (h : b.Ends transitive entries (.error cause)) :
    ∃ m r, b.Reaches transitive entries m ∧ b.Blocks m r ∧ cause = ⟨m, r.specifier⟩ :=
  let ⟨_, hBuild⟩ := h.exists_build
  build_error hBuild

/-- A build fails exactly if a reachable module has a reference that blocks it. -/
theorem ends_error_iff (hFinite : {m | b.Reaches transitive entries m}.Finite) :
    (∃ cause, b.Ends transitive entries (.error cause)) ↔
      ∃ m r, b.Reaches transitive entries m ∧ b.Blocks m r := by
  constructor
  · rintro ⟨cause, hEnds⟩
    obtain ⟨m, r, hReach, hBlocks, -⟩ := hEnds.culprit
    exact ⟨m, r, hReach, hBlocks⟩
  · rintro ⟨m, r, hReach, hBlocks⟩
    obtain ⟨result, hEnds⟩ := exists_ends hFinite
    cases result with
    | ok g => exact (hEnds.not_blocks hReach r hBlocks).elim
    | error cause => exact ⟨cause, hEnds⟩

/-! ## The graph in full -/

theorem mem_nodes_iff {g : Graph} (h : b.Describes transitive entries g) (l : String) :
    l ∈ g.nodes ↔
      (∃ m, b.Reaches transitive entries m ∧ b.labeler.label m.path = l) ∨
      (∃ m r t, b.Reaches transitive entries m ∧ b.Follows m r ∧ b.LeadsTo m r t ∧
        b.labeler.label t.path = l) ∨
      (b.options.includeExternal = true ∧
        ∃ m r, b.Reaches transitive entries m ∧ b.Follows m r ∧ b.LeadsOut m r ∧
          r.specifier = l) := by
  simp only [h.nodes, Shows, pointsTo_iff]
  constructor
  · rintro ⟨m, hReach, rfl | ⟨r, hFollows, ⟨t, hLeads, rfl⟩ | ⟨hExternal, hOut, rfl⟩⟩⟩
    · exact .inl ⟨m, hReach, rfl⟩
    · exact .inr (.inl ⟨m, r, t, hReach, hFollows, hLeads, rfl⟩)
    · exact .inr (.inr ⟨hExternal, m, r, hReach, hFollows, hOut, rfl⟩)
  · rintro (⟨m, hReach, rfl⟩ | ⟨m, r, t, hReach, hFollows, hLeads, rfl⟩ |
      ⟨hExternal, m, r, hReach, hFollows, hOut, rfl⟩)
    · exact ⟨m, hReach, .inl rfl⟩
    · exact ⟨m, hReach, .inr ⟨r, hFollows, .inl ⟨t, hLeads, rfl⟩⟩⟩
    · exact ⟨m, hReach, .inr ⟨r, hFollows, .inr ⟨hExternal, hOut, rfl⟩⟩⟩

theorem mem_edges_iff {g : Graph} (h : b.Describes transitive entries g) (e : Edge) :
    e ∈ g.edges ↔ e.source ≠ e.target ∧
      ((∃ m r t, b.Reaches transitive entries m ∧ b.Follows m r ∧ b.LeadsTo m r t ∧
        e = ⟨b.labeler.label m.path, b.labeler.label t.path⟩) ∨
      (b.options.includeExternal = true ∧
        ∃ m r, b.Reaches transitive entries m ∧ b.Follows m r ∧ b.LeadsOut m r ∧
          e = ⟨b.labeler.label m.path, r.specifier⟩)) := by
  obtain ⟨source, target⟩ := e
  simp only [h.edges, Draws, pointsTo_iff, Edge.mk.injEq]
  constructor
  · rintro ⟨m, hReach, rfl, hProper, r, hFollows, ⟨t, hLeads, rfl⟩ | ⟨hExternal, hOut, rfl⟩⟩
    · exact ⟨hProper, .inl ⟨m, r, t, hReach, hFollows, hLeads, rfl, rfl⟩⟩
    · exact ⟨hProper, .inr ⟨hExternal, m, r, hReach, hFollows, hOut, rfl, rfl⟩⟩
  · rintro ⟨hProper, ⟨m, r, t, hReach, hFollows, hLeads, rfl, rfl⟩ |
      ⟨hExternal, m, r, hReach, hFollows, hOut, rfl, rfl⟩⟩
    · exact ⟨m, hReach, rfl, hProper, r, hFollows, .inl ⟨t, hLeads, rfl⟩⟩
    · exact ⟨m, hReach, rfl, hProper, r, hFollows, .inr ⟨hExternal, hOut, rfl⟩⟩

/-- Over finitely many reachable modules, as always in memory, a build ends; if it succeeds, its
graph is the one that the reachable modules and their followed references describe. -/
theorem build_draws_reachable_graph (b : Builder) (transitive : Bool) (entries : List ModuleId) :
    ({m | b.Reaches transitive entries m}.Finite → ∃ result, b.Ends transitive entries result) ∧
    (∀ p : MemoryProject, b.project = p.toProject →
      {m | b.Reaches transitive entries m}.Finite ∧
        ∃ result, b.build transitive p.stepBound entries = some result) ∧
    ∀ steps g, b.build transitive steps entries = some (.ok g) →
      g.Normal ∧
      (∀ l, l ∈ g.nodes ↔
        (∃ m, b.Reaches transitive entries m ∧ b.labeler.label m.path = l) ∨
        (∃ m r t, b.Reaches transitive entries m ∧ b.Follows m r ∧ b.LeadsTo m r t ∧
          b.labeler.label t.path = l) ∨
        (b.options.includeExternal = true ∧
          ∃ m r, b.Reaches transitive entries m ∧ b.Follows m r ∧ b.LeadsOut m r ∧
            r.specifier = l)) ∧
      ∀ e, e ∈ g.edges ↔ e.source ≠ e.target ∧
        ((∃ m r t, b.Reaches transitive entries m ∧ b.Follows m r ∧ b.LeadsTo m r t ∧
          e = ⟨b.labeler.label m.path, b.labeler.label t.path⟩) ∨
        (b.options.includeExternal = true ∧
          ∃ m r, b.Reaches transitive entries m ∧ b.Follows m r ∧ b.LeadsOut m r ∧
            e = ⟨b.labeler.label m.path, r.specifier⟩)) := by
  refine ⟨exists_ends, fun p hProject => ?_, fun steps g hBuild => ?_⟩
  · exact ⟨finite_reaches_memory hProject transitive entries, build_memory_finishes hProject⟩
  · have hDescribes := (build_ok hBuild).1
    exact ⟨hDescribes.normal, mem_nodes_iff hDescribes, mem_edges_iff hDescribes⟩

section Ring

def ringStart : ModuleId := ⟨⟨"/p/src/a.ts"⟩⟩

def ringEnd : ModuleId := ⟨⟨"/p/src/b.ts"⟩⟩

/-- Two modules that refer to each other, and one of them to a package. -/
def ring : MemoryProject where
  modules := [(ringStart, [⟨"./b", .static, false⟩]),
    (ringEnd, [⟨"./a", .static, false⟩, ⟨"react", .static, false⟩])]
  links := [⟨ringStart, "./b", ringEnd⟩, ⟨ringEnd, "./a", ringStart⟩]

def ringBuilder : Builder :=
  ⟨.ofSourceRoot (.ofPath ⟨"/p"⟩) "src/", .ofSettings [] "src/", ⟨true, false, false⟩,
    ring.toProject⟩

theorem ring_reaches_end : ringBuilder.Reaches true [ringStart] ringEnd := by
  have hInternal : ringBuilder.Internal ringStart := by
    unfold Internal
    decide +kernel
  have hLeads : ringBuilder.LeadsTo ringStart ⟨"./b", .static, false⟩ ringEnd := by
    unfold LeadsTo Internal
    decide +kernel
  exact .step rfl (.entry (.head _) hInternal) ⟨_, rfl, .head _, by decide⟩ hLeads

theorem ring_closes : ∃ g, ringBuilder.build true ring.stepBound [ringStart] = some (.ok g) ∧
    "react" ∈ g.nodes ∧ ⟨"b", "a"⟩ ∈ g.edges := by
  obtain ⟨-, hMemory, hGraph⟩ := build_draws_reachable_graph ringBuilder true [ringStart]
  obtain ⟨-, result, hBuild⟩ := hMemory ring rfl
  cases result with
  | error cause =>
    obtain ⟨m, r, -, ⟨hStrict, -⟩, -⟩ := build_error hBuild
    cases hStrict
  | ok g =>
    obtain ⟨-, hNodes, hEdges⟩ := hGraph ring.stepBound g hBuild
    have hBack : ringBuilder.LeadsTo ringEnd ⟨"./a", .static, false⟩ ringStart := by
      unfold LeadsTo Internal
      decide +kernel
    have hPackage : ringBuilder.LeadsOut ringEnd ⟨"react", .static, false⟩ := .inl (by decide)
    refine ⟨g, hBuild, (hNodes _).mpr (.inr (.inr ?_)), (hEdges _).mpr ⟨by decide, .inl ?_⟩⟩
    · exact ⟨rfl, ringEnd, _, ring_reaches_end, ⟨_, rfl, .tail _ (.head _), by decide⟩, hPackage, rfl⟩
    · exact ⟨ringEnd, _, ringStart, ring_reaches_end, ⟨_, rfl, .head _, by decide⟩, hBack,
        by decide +kernel⟩

end Ring

end ModuleAtlas.Builder
