import ModuleAtlas.Graph.Basic
import ModuleAtlas.Proofs.Sorted

/-!
# The normal form of graphs

Built from unordered parts, a graph holds exactly the given proper edges, and exactly the given
labels together with the ends of these edges. Graphs in normal form are equal as soon as they have
the same nodes and the same edges.
-/

namespace ModuleAtlas

open Std

namespace Edge

instance : TransOrd Edge :=
  inferInstanceAs (TransCmp (compareLex (compareOn source) (compareOn target)))

instance : LawfulEqOrd Edge where
  eq_of_compare {a b} h := by
    obtain ⟨hSource, hTarget⟩ := compareLex_eq_eq.mp h
    cases a
    cases b
    congr
    · exact LawfulEqOrd.eq_of_compare hSource
    · exact LawfulEqOrd.eq_of_compare hTarget

@[simp] theorem isLoop_eq (e : Edge) : e.isLoop = decide (e.source = e.target) :=
  beq_eq_decide _ _

end Edge

namespace Graph

structure Normal (g : Graph) : Prop where
  nodes_increasing : Increasing g.nodes
  edges_increasing : Increasing g.edges
  proper : ∀ e ∈ g.edges, e.source ≠ e.target
  ends : ∀ e ∈ g.edges, e.source ∈ g.nodes ∧ e.target ∈ g.nodes

theorem mem_edges_ofParts {nodes : List String} {edges : List Edge} {e : Edge} :
    e ∈ (ofParts nodes edges).edges ↔ e ∈ edges ∧ e.source ≠ e.target := by
  simp [ofParts, mem_sortedDistinct, List.mem_filter]

theorem mem_nodes_ofParts {nodes : List String} {edges : List Edge} {l : String} :
    l ∈ (ofParts nodes edges).nodes ↔
      l ∈ nodes ∨ ∃ e ∈ edges, e.source ≠ e.target ∧ (l = e.source ∨ l = e.target) := by
  simp [ofParts, mem_sortedDistinct, List.mem_filter, and_assoc]

theorem normal_ofParts (nodes : List String) (edges : List Edge) : (ofParts nodes edges).Normal where
  nodes_increasing := increasing_sortedDistinct _
  edges_increasing := increasing_sortedDistinct _
  proper e he := (mem_edges_ofParts.mp he).2
  ends e he := by
    obtain ⟨hMem, hProper⟩ := mem_edges_ofParts.mp he
    exact ⟨mem_nodes_ofParts.mpr (.inr ⟨e, hMem, hProper, .inl rfl⟩),
      mem_nodes_ofParts.mpr (.inr ⟨e, hMem, hProper, .inr rfl⟩)⟩

instance (g : Graph) : Decidable g.Normal :=
  decidable_of_iff
    (Increasing g.nodes ∧ Increasing g.edges ∧ (∀ e ∈ g.edges, e.source ≠ e.target) ∧
      ∀ e ∈ g.edges, e.source ∈ g.nodes ∧ e.target ∈ g.nodes)
    ⟨fun ⟨hNodes, hEdges, hProper, hEnds⟩ => ⟨hNodes, hEdges, hProper, hEnds⟩,
      fun ⟨hNodes, hEdges, hProper, hEnds⟩ => ⟨hNodes, hEdges, hProper, hEnds⟩⟩

theorem Normal.ext {g g' : Graph} (hg : g.Normal) (hg' : g'.Normal)
    (hNodes : ∀ l, l ∈ g.nodes ↔ l ∈ g'.nodes) (hEdges : ∀ e, e ∈ g.edges ↔ e ∈ g'.edges) :
    g = g' := by
  have hNodes : g.nodes = g'.nodes := hg.nodes_increasing.eq_of_mem_iff hg'.nodes_increasing hNodes
  have hEdges : g.edges = g'.edges := hg.edges_increasing.eq_of_mem_iff hg'.edges_increasing hEdges
  cases g
  cases g'
  congr

theorem Normal.ofParts_eq {g : Graph} (hg : g.Normal) {nodes : List String} {edges : List Edge}
    (hNodes : ∀ l, l ∈ nodes ↔ l ∈ g.nodes) (hEdges : ∀ e, e ∈ edges ↔ e ∈ g.edges) :
    ofParts nodes edges = g := by
  apply (normal_ofParts nodes edges).ext hg
  · intro l
    rw [mem_nodes_ofParts, hNodes]
    constructor
    · rintro (hNode | ⟨e, he, -, rfl | rfl⟩)
      · exact hNode
      · exact (hg.ends e ((hEdges e).mp he)).1
      · exact (hg.ends e ((hEdges e).mp he)).2
    · exact .inl
  · intro e
    rw [mem_edges_ofParts, hEdges]
    constructor
    · exact And.left
    · exact fun he => ⟨he, hg.proper e he⟩

/-- Graphs in normal form are those that building from their parts gives back. -/
theorem normal_iff_ofParts {g : Graph} : g.Normal ↔ ofParts g.nodes g.edges = g := by
  constructor
  · intro hg
    exact hg.ofParts_eq (fun _ => Iff.rfl) fun _ => Iff.rfl
  · intro hSame
    rw [← hSame]
    exact normal_ofParts g.nodes g.edges

end Graph

end ModuleAtlas
