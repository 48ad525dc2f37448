import ModuleAtlas.Proofs.Graph.Search
import ModuleAtlas.Proofs.Text.Bytes

/-!
# The canonical form of graphs

A graph built from parts is fixed by two sets: the labels that are given or end a proper edge, and
the proper edges. It lists each set in the order of the bytes in UTF-8, and look-ups find exactly
what the lists hold.
-/

namespace ModuleAtlas

open Std

/-- Edges compare by the bytes of their sources, and from one source by those of their targets. -/
theorem Edge.compare_eq_lt_iff {e f : Edge} :
    compare e f = .lt ↔
      Text.bytes e.source < Text.bytes f.source ∨
        (e.source = f.source ∧ Text.bytes e.target < Text.bytes f.target) := by
  have hLex : compare e f = (compare e.source f.source).then (compare e.target f.target) := rfl
  rw [hLex, Ordering.then_eq_lt, Text.compare_eq_lt_iff, Text.compare_eq_lt_iff,
    LawfulEqOrd.compare_eq_iff_eq]

namespace Graph

/-- The label is one of the given ones or ends a given edge that is no loop. -/
def GivenNode (nodes : List String) (edges : List Edge) (l : String) : Prop :=
  l ∈ nodes ∨ ∃ e ∈ edges, e.source ≠ e.target ∧ (l = e.source ∨ l = e.target)

/-- The edge is one of the given ones and no loop. -/
def GivenEdge (edges : List Edge) (e : Edge) : Prop := e ∈ edges ∧ e.source ≠ e.target

variable {nodes nodes' : List String} {edges edges' : List Edge}

theorem ofParts_eq_iff :
    ofParts nodes edges = ofParts nodes' edges' ↔
      (∀ l, GivenNode nodes edges l ↔ GivenNode nodes' edges' l) ∧
        ∀ e, GivenEdge edges e ↔ GivenEdge edges' e := by
  constructor
  · intro hSame
    refine ⟨fun l => ?_, fun e => ?_⟩
    · rw [GivenNode, GivenNode, ← mem_nodes_ofParts, ← mem_nodes_ofParts, hSame]
    · have hMem := @mem_edges_ofParts nodes edges e
      have hMem' := @mem_edges_ofParts nodes' edges' e
      rw [GivenEdge, GivenEdge, ← hMem, ← hMem', hSame]
  · rintro ⟨hNodes, hEdges⟩
    apply (normal_ofParts nodes edges).ext (normal_ofParts nodes' edges')
    · intro l
      rw [mem_nodes_ofParts, mem_nodes_ofParts]
      exact hNodes l
    · intro e
      rw [mem_edges_ofParts, mem_edges_ofParts]
      exact hEdges e

theorem Normal.hasNode_iff {g : Graph} (hg : g.Normal) {l : String} :
    g.hasNode l = true ↔ l ∈ g.nodes := by
  rw [hasNode, Option.isSome_iff_exists, List.mem_iff_getElem?]
  simp only [hg.position?_eq_some_iff]

theorem Normal.hasEdge_iff {g : Graph} (hg : g.Normal) {e : Edge} :
    g.hasEdge e = true ↔ e ∈ g.edges := by
  rw [hasEdge, Option.isSome_iff_exists, List.mem_iff_getElem?]
  simp only [searchHalving_eq_some_iff hg.edges_increasing]

theorem Normal.nodes_by_bytes {g : Graph} (hg : g.Normal) :
    g.nodes.Pairwise fun l l' => Text.bytes l < Text.bytes l' :=
  hg.nodes_increasing.imp Text.compare_eq_lt_iff.mp

theorem Normal.edges_by_bytes {g : Graph} (hg : g.Normal) :
    g.edges.Pairwise fun e f =>
      Text.bytes e.source < Text.bytes f.source ∨
        (e.source = f.source ∧ Text.bytes e.target < Text.bytes f.target) :=
  hg.edges_increasing.imp Edge.compare_eq_lt_iff.mp

/-- Parts give a graph that lists exactly the labels and the proper edges that they stand for, each
in strictly increasing byte order. Whatever else differs between two inputs does not show, building
again from the lists changes nothing, and look-ups are exact. -/
theorem ofParts_gives_canonical_form (nodes : List String) (edges : List Edge) :
    let g := ofParts nodes edges
    ((g.nodes.Pairwise fun l l' => Text.bytes l < Text.bytes l') ∧
      ∀ l, l ∈ g.nodes ↔ GivenNode nodes edges l) ∧
    ((g.edges.Pairwise fun e f =>
        Text.bytes e.source < Text.bytes f.source ∨
          (e.source = f.source ∧ Text.bytes e.target < Text.bytes f.target)) ∧
      ∀ e, e ∈ g.edges ↔ GivenEdge edges e) ∧
    (∀ nodes' edges', g = ofParts nodes' edges' ↔
      (∀ l, GivenNode nodes edges l ↔ GivenNode nodes' edges' l) ∧
        ∀ e, GivenEdge edges e ↔ GivenEdge edges' e) ∧
    ofParts g.nodes g.edges = g ∧
    (∀ l i, g.position? l = some i ↔ g.nodes[i]? = some l) ∧
    (∀ l, g.hasNode l = true ↔ l ∈ g.nodes) ∧
    ∀ source target, g.hasEdge ⟨source, target⟩ = true ↔ ⟨source, target⟩ ∈ g.edges := by
  intro g
  have hg : g.Normal := normal_ofParts nodes edges
  refine ⟨⟨hg.nodes_by_bytes, fun l => mem_nodes_ofParts⟩,
    ⟨hg.edges_by_bytes, fun e => mem_edges_ofParts⟩, fun _ _ => ofParts_eq_iff, ?_, ?_, ?_, ?_⟩
  · exact hg.ofParts_eq (fun _ => Iff.rfl) fun _ => Iff.rfl
  · exact fun _ _ => hg.position?_eq_some_iff
  · exact fun _ => hg.hasNode_iff
  · exact fun _ _ => hg.hasEdge_iff

end Graph

end ModuleAtlas
