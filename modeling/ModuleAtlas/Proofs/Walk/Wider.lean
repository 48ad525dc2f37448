import ModuleAtlas.Proofs.Text
import ModuleAtlas.Proofs.Walk.Strict

/-!
# Wider builds

A build gets wider with more entries, with a larger scope, by following references further or of
more kinds, and by showing what lies outside. None of this takes a node or an edge away: a module
that is reached on a wider walk, or in another order, hides nothing.
-/

namespace ModuleAtlas.Builder

/-- The same project under the same labels, with at least as much in scope and asked for. -/
structure WidensTo (b b' : Builder) : Prop where
  labeler : b.labeler = b'.labeler
  project : b.project = b'.project
  scope : ∀ relative, b.scope.covers relative = true → b'.scope.covers relative = true
  includeExternal : b.options.includeExternal = true → b'.options.includeExternal = true
  includeTypeOnly : b.options.includeTypeOnly = true → b'.options.includeTypeOnly = true

variable {b b' : Builder}

theorem WidensTo.within (h : b.WidensTo b') : b.Within b' where
  labeler := h.labeler
  includeExternal := h.includeExternal
  follows hFollows := by
    obtain ⟨refs, hRefs, hMem, hLook⟩ := hFollows
    rw [h.project] at hRefs
    refine ⟨refs, hRefs, hMem, ?_⟩
    rintro ⟨hType, hOff⟩
    refine hLook ⟨hType, ?_⟩
    rw [Bool.eq_false_iff] at hOff ⊢
    exact fun hOn => hOff (h.includeTypeOnly hOn)
  leadsTo hLeads := by
    obtain ⟨hResolve, hInternal, hScope⟩ := hLeads
    rw [h.project] at hResolve
    rw [Internal, h.labeler] at hInternal
    rw [h.labeler] at hScope
    exact ⟨hResolve, hInternal, h.scope _ hScope⟩
  leadsOut hOut := by
    rw [LeadsOut, h.project, h.labeler] at hOut
    exact hOut

theorem exists_ends_ok {transitive : Bool} {entries : List ModuleId}
    (hLenient : b.options.strict = false) (hFinite : {m | b.Reaches transitive entries m}.Finite) :
    ∃ g, b.Ends transitive entries (.ok g) := by
  have hSame : b.strictly false = b := by
    rw [strictly, ← hLenient]
  have hEnds := lenient_ends hFinite
  rwa [hSame] at hEnds

/-- Two lenient builds, the second at least as wide as the first, both draw a graph, and whatever
the first one shows, the second one shows too. -/
theorem widening_removes_nothing (b b' : Builder) (transitive transitive' : Bool)
    (entries entries' : List ModuleId) (hWidens : b.WidensTo b')
    (hTransitive : transitive = true → transitive' = true)
    (hEntries : ∀ m ∈ entries, m ∈ entries') (hLenient : b.options.strict = false)
    (hLenient' : b'.options.strict = false)
    (hFinite : {m | b'.Reaches transitive' entries' m}.Finite) :
    ∃ g g', b.Ends transitive entries (.ok g) ∧ b'.Ends transitive' entries' (.ok g') ∧
      (∀ l ∈ g.nodes, l ∈ g'.nodes) ∧ ∀ e ∈ g.edges, e ∈ g'.edges := by
  have hWithin := hWidens.within
  have hNarrow : {m | b.Reaches transitive entries m}.Finite :=
    hFinite.subset fun _ hReach => hWithin.reaches hTransitive hEntries hReach
  obtain ⟨g, hEnds⟩ := exists_ends_ok hLenient hNarrow
  obtain ⟨g', hEnds'⟩ := exists_ends_ok hLenient' hFinite
  exact ⟨g, g', hEnds, hEnds',
    hWithin.subgraph hTransitive hEntries hEnds.describes hEnds'.describes⟩

/-- The ring seen from its start alone, with one file in scope and nothing from outside. -/
def arcBuilder : Builder :=
  ⟨ringBuilder.labeler, .beginnings ["src/b."], ⟨false, false, false⟩, ring.toProject⟩

theorem ring_keeps_arc : ∃ g g', arcBuilder.Ends false [ringStart] (.ok g) ∧
    ringBuilder.Ends true [ringEnd, ringStart] (.ok g') ∧ ⟨"a", "b"⟩ ∈ g.edges ∧
    ⟨"a", "b"⟩ ∈ g'.edges := by
  have hScope : ∀ relative, arcBuilder.scope.covers relative = true →
      ringBuilder.scope.covers relative = true := by
    intro relative hCovers
    have hFront : Text.startsWith relative "src/b." = true := by
      simpa [arcBuilder, Scope.covers] using hCovers
    obtain ⟨rest, rfl⟩ := Text.startsWith_iff.mp hFront
    exact Text.startsWith_iff.mpr ⟨"b." ++ rest, by rw [← String.append_assoc]; rfl⟩
  have hWidens : arcBuilder.WidensTo ringBuilder :=
    ⟨rfl, rfl, hScope, nofun, nofun⟩
  obtain ⟨g, g', hEnds, hEnds', -, hEdges⟩ := widening_removes_nothing arcBuilder ringBuilder false
    true [ringStart] [ringEnd, ringStart] hWidens nofun (by simp) rfl rfl
    (finite_reaches_memory (p := ring) rfl ..)
  have hArc : ⟨"a", "b"⟩ ∈ g.edges := by
    have hBuild : ∃ done, arcBuilder.build false 1 [ringStart] = some (.ok done) ∧
        ⟨"a", "b"⟩ ∈ done.edges := by
      refine ⟨_, rfl, ?_⟩
      rw [Draft.toGraph, Graph.mem_edges_ofParts]
      decide +kernel
    obtain ⟨done, hBuild, hEdge⟩ := hBuild
    cases hEnds.unique (ends_of_build hBuild)
    exact hEdge
  exact ⟨g, g', hEnds, hEnds', hArc, hEdges _ hArc⟩

end ModuleAtlas.Builder
