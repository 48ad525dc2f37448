import ModuleAtlas.Proofs.Diagram.Faithful
import ModuleAtlas.Proofs.Graph.Canonical
import ModuleAtlas.Proofs.Json.RoundTrip
import ModuleAtlas.Proofs.Path.Cleaned
import ModuleAtlas.Walk

/-!
# Values that were not made but read

Graphs are made in normal form, and module identities from cleaned paths. Reading them from JSON
checks neither: the lists of a graph are kept as they are written, and so is a path. So what is read
is as good as what is made exactly if it was written so.
-/

namespace ModuleAtlas

open Json Json.Value

/-! ## Graphs -/

namespace Graph

/-- Look-ups find what the graph holds and nothing else, and every edge has its line. -/
structure Exact (g : Graph) : Prop where
  node : ∀ l, g.hasNode l = true ↔ l ∈ g.nodes
  edge : ∀ e, g.hasEdge e = true ↔ e ∈ g.edges
  drawn : ∀ e ∈ g.edges, ∃ i j : Nat, g.nodes[i]? = some e.source ∧ g.nodes[j]? = some e.target ∧
    Diagram.edgeLine? g e = some (Diagram.nodeId i ++ " --> " ++ Diagram.nodeId j)

theorem Normal.exact {g : Graph} (hg : g.Normal) : g.Exact where
  node _ := hg.hasNode_iff
  edge _ := hg.hasEdge_iff
  drawn _ he := Diagram.edgeLine?_of_mem hg he

theorem mem_nodes_of_hasNode {g : Graph} {l : String} (h : g.hasNode l = true) : l ∈ g.nodes := by
  obtain ⟨i, hi⟩ := Option.isSome_iff_exists.mp h
  exact List.mem_of_getElem? (getElem?_of_searchHalving hi)

theorem mem_edges_of_hasEdge {g : Graph} {e : Edge} (h : g.hasEdge e = true) : e ∈ g.edges := by
  obtain ⟨i, hi⟩ := Option.isSome_iff_exists.mp h
  exact List.mem_of_getElem? (getElem?_of_searchHalving hi)

theorem normal_build {b : Builder} {transitive : Bool} {steps : Nat} {entries : List ModuleId}
    {g : Graph} (h : b.build transitive steps entries = some (.ok g)) : g.Normal := by
  rw [Builder.build] at h
  split at h
  · cases h
    exact normal_ofParts _ _
  · cases h
  · cases h

/-- The lists of a graph are taken as they are written. -/
theorem written_of_ofJson? {v : Value} {g : Graph} (h : ofJson? v = some g) : ∃ items,
    v.record? fieldNames = some [some (strings g.nodes), some (array items)] ∧
      items.mapM Edge.ofJson? = some g.edges := by
  rw [ofJson?] at h
  split at h
  · rename_i nodes edges hFields
    obtain ⟨ns, hNodes, hRest⟩ := Option.bind_eq_some_iff.mp h
    obtain ⟨es, hEdges, hGraph⟩ := Option.bind_eq_some_iff.mp hRest
    cases hGraph
    obtain ⟨nodes, rfl, hTexts⟩ := Option.bind_eq_some_iff.mp hNodes
    obtain ⟨edges, rfl, hList⟩ := Option.bind_eq_some_iff.mp hEdges
    obtain ⟨items, hItems, hEach⟩ := Option.bind_eq_some_iff.mp hList
    rw [list?_string?_eq_some_iff.mp hTexts, array?_eq_some_iff.mp hItems] at hFields
    exact ⟨items, hFields, hEach⟩
  · cases h

end Graph

/-! ## Module identities -/

namespace ModuleId

theorem text_of_ofJson? {s : String} {m : ModuleId} (h : ofJson? (string s) = some m) :
    m.text = s :=
  (string.inj ((ofJson?_eq_some_iff _ m).mp h).1).symm

theorem compare_eq_iff {m m' : ModuleId} :
    compare m m' = .eq ↔ m.path.components = m'.path.components := by
  change compare m.path.components m'.path.components = .eq ↔ _
  exact Std.LawfulEqOrd.compare_eq_iff_eq

theorem compare_ofPath_iff (m : ModuleId) : compare m (.ofPath m.path) = .eq ↔ m.path.IsClean := by
  rw [compare_eq_iff, ← Path.components_clean_eq_iff, eq_comm]
  rfl

/-- From clean paths, two identities are one exactly if the identities made from them are. -/
theorem compare_iff_ofPath_eq {m m' : ModuleId} (h : m.path.IsClean) (h' : m'.path.IsClean) :
    compare m m' = .eq ↔ ofPath m.path = ofPath m'.path := by
  rw [compare_eq_iff, ← (Path.components_clean_eq_iff _).mpr h,
    ← (Path.components_clean_eq_iff _).mpr h']
  constructor
  · intro hSame
    rw [ofPath, ofPath, Path.clean_eq_of_components_eq hSame]
  · intro hSame
    exact congrArg (fun m => m.path.components) hSame

end ModuleId

/-- What is made keeps its invariant, and what is read keeps it exactly if it was written so. Graphs
come in normal form from parts, from drafts and from builds. A graph that is read has the lists that
are written: it is in normal form exactly if making a graph of these lists would change nothing, and
then look-ups and the diagram are exact; otherwise look-ups may miss what is there. Identities are
made with clean paths. One that is read has the path that is written: it is the identity made from
this text exactly if the path is clean, and between clean paths spellings do not matter. -/
theorem read_values_keep_invariants_iff_written_so (v : Value) (s : String) :
    ((∀ nodes edges, (Graph.ofParts nodes edges).Normal) ∧ Graph.empty.Normal ∧
      (∀ d : Draft, d.toGraph.Normal) ∧
      ∀ (b : Builder) transitive steps entries g,
        b.build transitive steps entries = some (.ok g) → g.Normal) ∧
    (∀ g, Graph.ofJson? v = some g →
      (∃ items, v.record? Graph.fieldNames = some [some (strings g.nodes), some (array items)] ∧
        items.mapM Edge.ofJson? = some g.edges) ∧
      (g.Normal ↔ Graph.ofParts g.nodes g.edges = g) ∧ (g.Normal → g.Exact) ∧
      (∀ l, g.hasNode l = true → l ∈ g.nodes) ∧ ∀ e, g.hasEdge e = true → e ∈ g.edges) ∧
    (∀ p, (ModuleId.ofPath p).path.IsClean) ∧
    ∀ m, ModuleId.ofJson? (string s) = some m →
      m.text = s ∧ (compare m (.ofText s) = .eq ↔ (Path.mk s).IsClean) ∧
      ∀ s' m', ModuleId.ofJson? (string s') = some m' → (Path.mk s).IsClean → (Path.mk s').IsClean →
        (compare m m' = .eq ↔ ModuleId.ofText s = ModuleId.ofText s') := by
  refine ⟨⟨Graph.normal_ofParts, by decide, fun d => Graph.normal_ofParts _ _,
    fun _ _ _ _ _ => Graph.normal_build⟩, fun g hRead => ?_, Path.isClean_clean, ?_⟩
  · exact ⟨Graph.written_of_ofJson? hRead, Graph.normal_iff_ofParts, Graph.Normal.exact,
      fun _ => Graph.mem_nodes_of_hasNode, fun _ => Graph.mem_edges_of_hasEdge⟩
  · intro m hRead
    obtain rfl := ModuleId.text_of_ofJson? hRead
    refine ⟨rfl, ModuleId.compare_ofPath_iff m, fun s' m' hOther h h' => ?_⟩
    obtain rfl := ModuleId.text_of_ofJson? hOther
    exact ModuleId.compare_iff_ofPath_eq h h'

/-- In order, the nodes and the edge are read as they would be made. -/
theorem ordered_graph_is_exact : ∃ g,
    Graph.ofJson? (object [("edges", array [array [string "b", string "a"]]),
      ("nodes", strings ["a", "b"])]) = some g ∧
    Graph.ofParts g.nodes g.edges = g ∧ g.Exact := by
  have hRead : Graph.ofJson? (object [("edges", array [array [string "b", string "a"]]),
      ("nodes", strings ["a", "b"])]) = some ⟨["a", "b"], [⟨"b", "a"⟩]⟩ := rfl
  obtain ⟨-, hGraphs, -⟩ := read_values_keep_invariants_iff_written_so _ ""
  obtain ⟨-, hIff, hExact, -⟩ := hGraphs _ hRead
  have hNormal : (Graph.mk ["a", "b"] [⟨"b", "a"⟩]).Normal := by decide +kernel
  exact ⟨_, hRead, hIff.mp hNormal, hExact hNormal⟩

def disordered : Value :=
  object [("nodes", strings ["b", "a"]),
    ("edges", array [object [("from", string "b"), ("to", string "a")]])]

/-- The nodes stand in the wrong order, so a look-up misses one, and the edge is not drawn. A step
back stays in a path. -/
theorem reading_breaks_invariants :
    (∃ g, Graph.ofJson? disordered = some g ∧ ¬ g.Normal ∧ "b" ∈ g.nodes ∧ g.hasNode "b" = false ∧
      g.edges = [⟨"b", "a"⟩] ∧ Diagram.render .bare g = "graph TD\nn1[\"b\"]\nn2[\"a\"]") ∧
    ∃ m, ModuleId.ofJson? (string "a/../b") = some m ∧ compare m (.ofText "a/../b") ≠ .eq := by
  refine ⟨⟨⟨["b", "a"], [⟨"b", "a"⟩]⟩, rfl, by decide +kernel, by decide, by decide +kernel, rfl,
    by decide +kernel⟩, ⟨⟨"a/../b"⟩⟩, rfl, by decide +kernel⟩

end ModuleAtlas
