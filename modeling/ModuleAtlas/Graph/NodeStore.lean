import ModuleAtlas.Dictionary
import ModuleAtlas.Graph.Basic

/-!
# Drafts over a store of numbered nodes

A numbered draft keeps its nodes and edges in a graph store, which numbers the nodes, and beside the
store a dictionary from labels to numbers. Each label is one node and each ordered pair one edge.

The store is a parameter. What is relied on is `LawfulNodeStore`: as long as nothing is removed, new
nodes are numbered consecutively from zero, and updating an edge keeps one edge for each ordered
pair. Edges may be read out in any order, and so may nodes.
-/

namespace ModuleAtlas

/-- Directed graphs that number their nodes; a node carries a label. -/
class NodeStore (σ : Type) where
  empty : σ
  addNode : σ → String → Nat × σ
  /-- Adds an edge between two nodes; one that is there already is replaced. -/
  updateEdge : σ → Nat → Nat → σ
  label? : σ → Nat → Option String
  nodes : σ → List Nat
  edges : σ → List (Nat × Nat)
  nodeCount : σ → Nat
  edgeCount : σ → Nat

namespace NodeStore

/-- Stores built up without removing anything. -/
inductive Grown {σ : Type} [NodeStore σ] : σ → Prop where
  | empty : Grown empty
  | addNode {s : σ} (label : String) : Grown s → Grown (addNode s label).2
  | updateEdge {s : σ} {a b : Nat} :
      Grown s → a < nodeCount s → b < nodeCount s → Grown (updateEdge s a b)

end NodeStore

open NodeStore in
class LawfulNodeStore (σ : Type) [NodeStore σ] : Prop where
  nodeCount_empty : nodeCount (empty : σ) = 0
  label?_empty (i : Nat) : label? (empty : σ) i = none
  edges_empty : edges (empty : σ) = []
  number_addNode {s : σ} {l : String} : Grown s → (addNode s l).1 = nodeCount s
  nodeCount_addNode {s : σ} {l : String} : Grown s → nodeCount (addNode s l).2 = nodeCount s + 1
  label?_addNode {s : σ} {l : String} {i : Nat} : Grown s →
    label? (addNode s l).2 i = if i = nodeCount s then some l else label? s i
  edges_addNode {s : σ} {l : String} : Grown s → (edges (addNode s l).2).Perm (edges s)
  nodeCount_updateEdge {s : σ} {a b : Nat} : Grown s → a < nodeCount s → b < nodeCount s →
    nodeCount (updateEdge s a b) = nodeCount s
  label?_updateEdge {s : σ} {a b i : Nat} : Grown s → a < nodeCount s → b < nodeCount s →
    label? (updateEdge s a b) i = label? s i
  edges_updateEdge {s : σ} {a b : Nat} : Grown s → a < nodeCount s → b < nodeCount s →
    (edges (updateEdge s a b)).Perm ((edges s).insert (a, b))
  mem_nodes {s : σ} {i : Nat} : Grown s → (i ∈ nodes s ↔ i < nodeCount s)
  length_edges {s : σ} : Grown s → (edges s).length = edgeCount s

structure NumberedDraft (σ : Type) where
  store : σ
  numbers : Dictionary Nat

namespace NumberedDraft

variable {σ : Type} [NodeStore σ]

def empty : NumberedDraft σ := ⟨NodeStore.empty, .empty⟩

def nodeCount (g : NumberedDraft σ) : Nat := NodeStore.nodeCount g.store

def edgeCount (g : NumberedDraft σ) : Nat := NodeStore.edgeCount g.store

def addNode (g : NumberedDraft σ) (label : String) : Nat × NumberedDraft σ :=
  match g.numbers.get? label with
  | some i => (i, g)
  | none =>
    let (i, store) := NodeStore.addNode g.store label
    (i, ⟨store, g.numbers.insert label i⟩)

/-- Adds an edge and its ends, and tells whether it did; an edge from a label to itself is never
stored. -/
def addEdge (g : NumberedDraft σ) (e : Edge) : Bool × NumberedDraft σ :=
  if e.isLoop then (false, g)
  else
    let (a, g) := g.addNode e.source
    let (b, g) := g.addNode e.target
    (true, { g with store := NodeStore.updateEdge g.store a b })

def edge? (s : σ) (ends : Nat × Nat) : Option Edge := do
  let source ← NodeStore.label? s ends.1
  let target ← NodeStore.label? s ends.2
  return ⟨source, target⟩

/-- The finished graph in normal form; none if some number has no label. -/
def toGraph? (g : NumberedDraft σ) : Option Graph := do
  let edges ← (NodeStore.edges g.store).mapM (edge? g.store)
  let labels ← (NodeStore.nodes g.store).mapM (NodeStore.label? g.store)
  return Graph.ofParts labels edges

/-! ## Calls -/

inductive Call where
  | node (label : String)
  | edge (e : Edge)
deriving DecidableEq

inductive Answer where
  | number (i : Nat)
  | added (b : Bool)
deriving DecidableEq

def perform (g : NumberedDraft σ) : Call → Answer × NumberedDraft σ
  | .node label => (g.addNode label).map .number id
  | .edge e => (g.addEdge e).map .added id

/-- The answers to calls made one after the other, and the draft that they leave. -/
def performAll : NumberedDraft σ → List Call → List Answer × NumberedDraft σ
  | g, [] => ([], g)
  | g, call :: calls =>
    let (answer, g) := g.perform call
    let (answers, g) := performAll g calls
    (answer :: answers, g)

end NumberedDraft

/-! ## Arenas -/

/-- The plainest store: a node's number is its place in the list of labels. -/
structure Arena where
  labels : List String
  pairs : List (Nat × Nat)
deriving DecidableEq

instance : NodeStore Arena where
  empty := ⟨[], []⟩
  addNode s l := (s.labels.length, { s with labels := s.labels ++ [l] })
  updateEdge s a b := { s with pairs := s.pairs.insert (a, b) }
  label? s i := s.labels[i]?
  nodes s := List.range s.labels.length
  edges s := s.pairs
  nodeCount s := s.labels.length
  edgeCount s := s.pairs.length

end ModuleAtlas
