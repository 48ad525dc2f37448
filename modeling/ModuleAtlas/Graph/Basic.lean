import ModuleAtlas.Sorted

/-!
# Graphs

A dependency graph lists its nodes by label and its edges by the labels of their ends. Built with
`Graph.ofParts` it is in normal form: both lists strictly increasing, every end of an edge a node,
and no edge from a node to itself. Look-ups search by halving and rely on that order. A graph is
built as a draft.
-/

namespace ModuleAtlas

/-- The module labelled `source` imports or re-exports from the one labelled `target`. -/
structure Edge where
  source : String
  target : String
deriving DecidableEq

namespace Edge

instance : Ord Edge := ⟨compareLex (compareOn source) (compareOn target)⟩

def isLoop (e : Edge) : Bool := e.source == e.target

end Edge

structure Graph where
  nodes : List String
  edges : List Edge
deriving DecidableEq

namespace Graph

def empty : Graph := ⟨[], []⟩

/-- The normal form of unordered parts: repetitions collapse, loops are dropped, and the ends of
edges become nodes. -/
def ofParts (nodes : List String) (edges : List Edge) : Graph :=
  let proper := edges.filter (! ·.isLoop)
  ⟨sortedDistinct (nodes ++ proper.flatMap fun e => [e.source, e.target]), sortedDistinct proper⟩

def nodeCount (g : Graph) : Nat := g.nodes.length

def edgeCount (g : Graph) : Nat := g.edges.length

def isEmpty (g : Graph) : Bool := g.nodes.isEmpty

def position? (g : Graph) (label : String) : Option Nat :=
  searchHalving (compare · label) g.nodes.toArray

def hasNode (g : Graph) (label : String) : Bool := (g.position? label).isSome

def hasEdge (g : Graph) (e : Edge) : Bool := (searchHalving (compare · e) g.edges.toArray).isSome

end Graph

/-! ## Drafts -/

/-- A graph under construction. It keeps each label and each edge once, in order of first
appearance, and never holds an edge from a label to itself. -/
structure Draft where
  labels : List String
  edges : List Edge
deriving DecidableEq

namespace Draft

def empty : Draft := ⟨[], []⟩

def addNode (d : Draft) (label : String) : Draft :=
  if d.labels.contains label then d else { d with labels := d.labels ++ [label] }

/-- Adds an edge and its ends; an edge from a label to itself changes nothing. -/
def addEdge (d : Draft) (e : Edge) : Draft :=
  if e.isLoop then d
  else
    let d := (d.addNode e.source).addNode e.target
    if d.edges.contains e then d else { d with edges := d.edges ++ [e] }

def toGraph (d : Draft) : Graph := Graph.ofParts d.labels d.edges

end Draft

end ModuleAtlas
