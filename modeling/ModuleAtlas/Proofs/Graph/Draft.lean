import ModuleAtlas.Graph.Basic
import ModuleAtlas.Proofs.Graph.Normal

/-!
# Labels and edges of a draft

What each operation adds to a draft, and what the finished graph takes from it.
-/

namespace ModuleAtlas.Draft

theorem mem_labels_addNode {d : Draft} {label l : String} :
    l ∈ (d.addNode label).labels ↔ l ∈ d.labels ∨ l = label := by
  rw [addNode]
  split
  · rename_i hKnown
    simp only [List.contains_eq_mem, decide_eq_true_eq] at hKnown
    constructor
    · exact .inl
    · rintro (h | rfl)
      · exact h
      · exact hKnown
  · simp

@[simp] theorem edges_addNode (d : Draft) (label : String) : (d.addNode label).edges = d.edges := by
  rw [addNode]
  split <;> rfl

/-- A label that is known keeps its place. -/
theorem getElem?_labels_addNode {d : Draft} {i : Nat} {label l : String}
    (h : d.labels[i]? = some l) : (d.addNode label).labels[i]? = some l := by
  rw [addNode]
  split
  · exact h
  · rw [List.getElem?_append_left (List.getElem?_eq_some_iff.mp h).1, h]

theorem mem_labels_addEdge {d : Draft} {e : Edge} {l : String} :
    l ∈ (d.addEdge e).labels ↔
      l ∈ d.labels ∨ (e.source ≠ e.target ∧ (l = e.source ∨ l = e.target)) := by
  rw [addEdge]
  split
  · rename_i hLoop
    have hLoop : e.source = e.target := by simpa using hLoop
    simp [hLoop]
  · rename_i hProper
    have hProper : e.source ≠ e.target := by simpa using hProper
    dsimp only
    split <;> simp [mem_labels_addNode, hProper, or_assoc]

theorem mem_edges_addEdge {d : Draft} {e f : Edge} :
    f ∈ (d.addEdge e).edges ↔ f ∈ d.edges ∨ (e.source ≠ e.target ∧ f = e) := by
  rw [addEdge]
  split
  · rename_i hLoop
    have hLoop : e.source = e.target := by simpa using hLoop
    simp [hLoop]
  · rename_i hProper
    have hProper : e.source ≠ e.target := by simpa using hProper
    dsimp only
    split
    · rename_i hKnown
      simp only [edges_addNode, List.contains_eq_mem, decide_eq_true_eq] at hKnown ⊢
      constructor
      · exact .inl
      · rintro (h | ⟨-, rfl⟩)
        · exact h
        · exact hKnown
    · simp [hProper]

end ModuleAtlas.Draft
