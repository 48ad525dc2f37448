import ModuleAtlas.Graph.Basic

/-!
# Diagrams

A graph is written as a Mermaid flowchart: a header, one line for each node, one line for each
edge. Nodes are numbered from one by their position in the graph, so equal graphs give equal texts.
-/

namespace ModuleAtlas

inductive Fence where
  | bare
  | markdown
deriving DecidableEq

namespace Diagram

def header : String := "graph TD"

def nodeId (position : Nat) : String := "n" ++ toString (position + 1)

/-- A double quote would end a label early, so it is written as an entity. -/
def escape (label : String) : String :=
  String.ofList (label.toList.flatMap fun c => if c = '"' then "#quot;".toList else [c])

def nodeLine (position : Nat) (label : String) : String :=
  nodeId position ++ "[\"" ++ escape label ++ "\"]"

/-- The line of an edge, unless one of its ends is no node of the graph. -/
def edgeLine? (g : Graph) (e : Edge) : Option String :=
  match g.position? e.source, g.position? e.target with
  | some a, some b => some (nodeId a ++ " --> " ++ nodeId b)
  | _, _ => none

def body (g : Graph) : List String :=
  header :: g.nodes.mapIdx nodeLine ++ g.edges.filterMap (edgeLine? g)

def lines (fence : Fence) (g : Graph) : List String :=
  match fence with
  | .bare => body g
  | .markdown => "```mermaid" :: body g ++ ["```"]

def render (fence : Fence) (g : Graph) : String := "\n".intercalate (lines fence g)

end Diagram

end ModuleAtlas
