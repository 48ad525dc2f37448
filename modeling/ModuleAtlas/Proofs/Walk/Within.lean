import ModuleAtlas.Proofs.Walk.ReachableGraph

/-!
# Builders within builders

A builder lies within another one when the other follows each reference that it follows, and draws
from it what it draws. What the first reaches and shows, the other one reaches and shows as well. Two
builders that lie within each other and reach the same modules draw one graph.
-/

namespace ModuleAtlas.Builder

structure Within (b b' : Builder) : Prop where
  labeler : b.labeler = b'.labeler
  includeExternal : b.options.includeExternal = true → b'.options.includeExternal = true
  follows : ∀ {m r}, b.Follows m r → b'.Follows m r
  leadsTo : ∀ {m r t}, b.LeadsTo m r t → b'.LeadsTo m r t
  leadsOut : ∀ {m r}, b.LeadsOut m r → b'.LeadsOut m r

variable {b b' : Builder} {transitive transitive' : Bool} {entries entries' : List ModuleId}

theorem within_refl (b : Builder) : b.Within b := ⟨rfl, id, id, id, id⟩

namespace Within

variable (h : b.Within b')

include h

theorem pointsTo {m : ModuleId} {r : Reference} {l : String} (hPoints : b.PointsTo m r l) :
    b'.PointsTo m r l := by
  cases hPoints with
  | module hLeads =>
    rw [h.labeler]
    exact .module (h.leadsTo hLeads)
  | leaf hExternal hOut => exact .leaf (h.includeExternal hExternal) (h.leadsOut hOut)

theorem shows {m : ModuleId} {l : String} (hShows : b.Shows m l) : b'.Shows m l := by
  rcases hShows with rfl | ⟨r, hFollows, hPoints⟩
  · exact .inl (by rw [h.labeler])
  · exact .inr ⟨r, h.follows hFollows, h.pointsTo hPoints⟩

theorem draws {m : ModuleId} {e : Edge} (hDraws : b.Draws m e) : b'.Draws m e := by
  obtain ⟨hSource, hProper, r, hFollows, hPoints⟩ := hDraws
  rw [h.labeler] at hSource
  exact ⟨hSource, hProper, r, h.follows hFollows, h.pointsTo hPoints⟩

theorem reaches (hTransitive : transitive = true → transitive' = true)
    (hEntries : ∀ m ∈ entries, m ∈ entries') {m : ModuleId}
    (hReach : b.Reaches transitive entries m) : b'.Reaches transitive' entries' m := by
  apply hReach.mono
  · intro m hMem hInternal
    rw [Internal, h.labeler] at hInternal
    exact .entry (hEntries m hMem) hInternal
  · intro m r t hOn hFollows hLeads
    exact ⟨hTransitive hOn, h.follows hFollows, h.leadsTo hLeads⟩

/-- Nothing that is drawn within is missing outside. -/
theorem subgraph (hTransitive : transitive = true → transitive' = true)
    (hEntries : ∀ m ∈ entries, m ∈ entries') {g g' : Graph}
    (hDescribes : b.Describes transitive entries g)
    (hDescribes' : b'.Describes transitive' entries' g') :
    (∀ l ∈ g.nodes, l ∈ g'.nodes) ∧ ∀ e ∈ g.edges, e ∈ g'.edges := by
  constructor
  · intro l hl
    obtain ⟨m, hReach, hShows⟩ := (hDescribes.nodes l).mp hl
    exact (hDescribes'.nodes l).mpr ⟨m, h.reaches hTransitive hEntries hReach, h.shows hShows⟩
  · intro e he
    obtain ⟨m, hReach, hDraws⟩ := (hDescribes.edges e).mp he
    exact (hDescribes'.edges e).mpr ⟨m, h.reaches hTransitive hEntries hReach, h.draws hDraws⟩

end Within

section Same

variable (h : b.Within b') (hBack : b'.Within b)
  (hReaches : ∀ m, b.Reaches transitive entries m ↔ b'.Reaches transitive' entries' m)

include h hBack hReaches

theorem describes_of_same {g : Graph} (hDescribes : b.Describes transitive entries g) :
    b'.Describes transitive' entries' g where
  normal := hDescribes.normal
  nodes l := by
    rw [hDescribes.nodes]
    constructor
    · rintro ⟨m, hReach, hShows⟩
      exact ⟨m, (hReaches m).mp hReach, h.shows hShows⟩
    · rintro ⟨m, hReach, hShows⟩
      exact ⟨m, (hReaches m).mpr hReach, hBack.shows hShows⟩
  edges e := by
    rw [hDescribes.edges]
    constructor
    · rintro ⟨m, hReach, hDraws⟩
      exact ⟨m, (hReaches m).mp hReach, h.draws hDraws⟩
    · rintro ⟨m, hReach, hDraws⟩
      exact ⟨m, (hReaches m).mpr hReach, hBack.draws hDraws⟩

/-- A build that succeeds fixes the other one, unless that fails over a reference of its own. -/
theorem ends_ok_of_same (hBlocks : ∀ m r, b'.Blocks m r → b.Blocks m r) {g : Graph}
    {result : Except Unresolved Graph} (hEnds : b.Ends transitive entries (.ok g))
    (hEnds' : b'.Ends transitive' entries' result) : result = .ok g := by
  cases result with
  | ok g' => rw [(describes_of_same h hBack hReaches hEnds.describes).unique hEnds'.describes]
  | error cause =>
    obtain ⟨m, r, hReach, hBlocks', -⟩ := hEnds'.culprit
    exact (hEnds.not_blocks ((hReaches m).mpr hReach) r (hBlocks m r hBlocks')).elim

end Same

end ModuleAtlas.Builder
