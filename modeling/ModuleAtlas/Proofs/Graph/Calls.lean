import Mathlib.Data.Finset.Card
import ModuleAtlas.Graph.NodeStore
import ModuleAtlas.Proofs.Graph.Canonical
import ModuleAtlas.Proofs.Graph.Draft

/-!
# Calls on a draft

Whatever calls build a draft, it holds the labels and the proper edges that the calls bring in, each
once and in order of first appearance, and the finished graph is the one built from all that the
calls were given.
-/

namespace ModuleAtlas

namespace NumberedDraft

/-! ## First appearances -/

section First

variable {α : Type} [BEq α] [LawfulBEq α]

theorem eraseDups_concat (xs : List α) (a : α) :
    (xs ++ [a]).eraseDups =
      if xs.eraseDups.contains a then xs.eraseDups else xs.eraseDups ++ [a] := by
  rw [List.eraseDups_append]
  by_cases hKnown : a ∈ xs
  · simp [List.removeAll, hKnown]
  · simp [List.removeAll, hKnown, List.eraseDups_cons]

theorem nodup_eraseDups (xs : List α) : xs.eraseDups.Nodup := by
  induction xs using List.reverseRecOn with
  | nil => exact List.nodup_nil
  | append_singleton xs a ih =>
    rw [eraseDups_concat]
    split
    · exact ih
    · rename_i hNew
      have hNew : a ∉ xs.eraseDups := by simpa using hNew
      exact List.nodup_append'.mpr ⟨ih, List.nodup_singleton a, by simpa using hNew⟩

theorem length_eraseDups [DecidableEq α] (xs : List α) :
    xs.eraseDups.length = xs.toFinset.card := by
  rw [← List.toFinset_card_of_nodup (nodup_eraseDups xs)]
  congr 1
  ext a
  simp

/-- What first appears behind a list stands behind it in the order of first appearances. -/
theorem idxOf_eraseDups_append {xs : List α} {a : α} (h : a ∈ xs) (ys : List α) :
    (xs ++ ys).eraseDups.idxOf a = xs.eraseDups.idxOf a := by
  rw [List.eraseDups_append, List.idxOf_append_of_mem (by simpa using h)]

theorem idxOf_eraseDups [DecidableEq α] {before rest : List α} {a : α} (h : a ∉ before) :
    (before ++ a :: rest).eraseDups.idxOf a = before.toFinset.card := by
  have hFirst : (a :: rest).removeAll before = a :: rest.removeAll before := by
    simp [List.removeAll, h]
  rw [List.eraseDups_append, hFirst, List.eraseDups_cons,
    List.idxOf_append_of_notMem (by simpa using h), List.idxOf_cons_self, length_eraseDups]
  rfl

end First

/-! ## What calls bring in -/

namespace Call

/-- The labels that a call brings in; a loop brings in none. -/
def labels : Call → List String
  | .node l => [l]
  | .edge e => if e.isLoop then [] else [e.source, e.target]

/-- The edge that a call brings in, unless it is a loop. -/
def edges : Call → List Edge
  | .node _ => []
  | .edge e => if e.isLoop then [] else [e]

/-- The label that a call is given as a node. -/
def givenNode? : Call → Option String
  | .node l => some l
  | .edge _ => none

/-- The edge that a call is given, loop or not. -/
def givenEdge? : Call → Option Edge
  | .node _ => none
  | .edge e => some e

/-- What a call answers where labels are numbered by their places in a list. -/
def answer (numbered : List String) : Call → Answer
  | .node l => .number (numbered.idxOf l)
  | .edge e => .added (! e.isLoop)

end Call

/-- The labels of calls, each once, in order of first appearance. -/
def labelsOf (calls : List Call) : List String := (calls.flatMap Call.labels).eraseDups

/-- The proper edges of calls, each once, in order of first appearance. -/
def edgesOf (calls : List Call) : List Edge := (calls.flatMap Call.edges).eraseDups

theorem Call.mem_labels {call : Call} {l : String} :
    l ∈ call.labels ↔ call.givenNode? = some l ∨
      ∃ e, call.givenEdge? = some e ∧ e.source ≠ e.target ∧ (l = e.source ∨ l = e.target) := by
  cases call with
  | node name => simp [labels, givenNode?, givenEdge?, eq_comm]
  | edge e => by_cases hLoop : e.source = e.target <;> simp [labels, givenNode?, givenEdge?, hLoop]

theorem Call.mem_edges {call : Call} {e : Edge} :
    e ∈ call.edges ↔ call.givenEdge? = some e ∧ e.source ≠ e.target := by
  cases call with
  | node name => simp [edges, givenEdge?]
  | edge f =>
    by_cases hLoop : f.source = f.target
    · simp only [edges, Edge.isLoop_eq, hLoop, decide_true, if_true, List.not_mem_nil, givenEdge?,
        Option.some.injEq, false_iff]
      rintro ⟨rfl, hProper⟩
      exact hProper hLoop
    · simp only [edges, Edge.isLoop_eq, hLoop, decide_false, Bool.false_eq_true, if_false,
        List.mem_singleton, givenEdge?, Option.some.injEq]
      constructor
      · rintro rfl
        exact ⟨rfl, hLoop⟩
      · exact fun h => h.1.symm

theorem mem_labelsOf {calls : List Call} {l : String} :
    l ∈ labelsOf calls ↔
      Graph.GivenNode (calls.filterMap Call.givenNode?) (calls.filterMap Call.givenEdge?) l := by
  rw [labelsOf, List.mem_eraseDups, List.mem_flatMap, Graph.GivenNode]
  simp only [List.mem_filterMap, Call.mem_labels]
  constructor
  · rintro ⟨call, hCall, hNode | ⟨e, hEdge, hProper, hEnd⟩⟩
    · exact .inl ⟨call, hCall, hNode⟩
    · exact .inr ⟨e, ⟨call, hCall, hEdge⟩, hProper, hEnd⟩
  · rintro (⟨call, hCall, hNode⟩ | ⟨e, ⟨call, hCall, hEdge⟩, hProper, hEnd⟩)
    · exact ⟨call, hCall, .inl hNode⟩
    · exact ⟨call, hCall, .inr ⟨e, hEdge, hProper, hEnd⟩⟩

theorem mem_edgesOf {calls : List Call} {e : Edge} :
    e ∈ edgesOf calls ↔ Graph.GivenEdge (calls.filterMap Call.givenEdge?) e := by
  rw [edgesOf, List.mem_eraseDups, List.mem_flatMap, Graph.GivenEdge, List.mem_filterMap]
  simp only [Call.mem_edges]
  constructor
  · rintro ⟨call, hCall, hEdge, hProper⟩
    exact ⟨⟨call, hCall, hEdge⟩, hProper⟩
  · rintro ⟨⟨call, hCall, hEdge⟩, hProper⟩
    exact ⟨call, hCall, hEdge, hProper⟩

theorem mem_labelsOf_of_node {calls : List Call} {l : String} (h : Call.node l ∈ calls) :
    l ∈ labelsOf calls :=
  mem_labelsOf.mpr (.inl (List.mem_filterMap.mpr ⟨_, h, rfl⟩))

/-- The number that calls on a new draft answer for a label is the number of labels that appeared
before it. -/
theorem idxOf_labelsOf {calls : List Call} {l : String} (h : Call.node l ∈ calls) :
    ∃ before rest, calls.flatMap Call.labels = before ++ l :: rest ∧ l ∉ before ∧
      (labelsOf calls).idxOf l = before.toFinset.card := by
  have hMem : l ∈ calls.flatMap Call.labels := List.mem_eraseDups.mp (mem_labelsOf_of_node h)
  obtain ⟨before, rest, hSplit, hNew⟩ := List.eq_append_cons_of_mem hMem
  refine ⟨before, rest, hSplit, hNew, ?_⟩
  rw [labelsOf, hSplit, idxOf_eraseDups hNew]

end NumberedDraft

/-! ## Drafts under calls -/

namespace Draft

open NumberedDraft

def take (d : Draft) : Call → Draft
  | .node l => d.addNode l
  | .edge e => d.addEdge e

/-- The draft holds what the calls have brought in. -/
structure Records (d : Draft) (calls : List Call) : Prop where
  labels : d.labels = labelsOf calls
  edges : d.edges = edgesOf calls

theorem records_empty : empty.Records [] := ⟨rfl, rfl⟩

section Step

variable {d : Draft}

theorem labels_addNode {xs : List String} (h : d.labels = xs.eraseDups) (l : String) :
    (d.addNode l).labels = (xs ++ [l]).eraseDups := by
  rw [addNode, eraseDups_concat, ← h]
  split
  · rfl
  · rfl

theorem labels_addEdge {xs : List String} (h : d.labels = xs.eraseDups) (e : Edge) :
    (d.addEdge e).labels = (xs ++ Call.labels (.edge e)).eraseDups := by
  rw [addEdge, Call.labels]
  split
  · rw [List.append_nil, h]
  · have hEnds := labels_addNode (labels_addNode h e.source) e.target
    rw [List.append_assoc] at hEnds
    dsimp only
    split
    · exact hEnds
    · exact hEnds

theorem edges_addEdge {es : List Edge} (h : d.edges = es.eraseDups) (e : Edge) :
    (d.addEdge e).edges = (es ++ Call.edges (.edge e)).eraseDups := by
  rw [addEdge, Call.edges]
  split
  · rw [List.append_nil, h]
  · dsimp only
    rw [eraseDups_concat, edges_addNode, edges_addNode, h]
    split
    · rw [edges_addNode, edges_addNode, h]
    · rfl

theorem Records.take {before : List Call} (h : d.Records before) (call : Call) :
    (d.take call).Records (before ++ [call]) := by
  have hLabels : d.labels = (before.flatMap Call.labels).eraseDups := h.labels
  have hEdges : d.edges = (before.flatMap Call.edges).eraseDups := h.edges
  constructor
  · rw [labelsOf, List.flatMap_append, List.flatMap_singleton]
    cases call with
    | node l => exact labels_addNode hLabels l
    | edge e => exact labels_addEdge hLabels e
  · rw [edgesOf, List.flatMap_append, List.flatMap_singleton]
    cases call with
    | node l =>
      rw [Call.edges, List.append_nil, ← hEdges]
      exact edges_addNode d l
    | edge e => exact edges_addEdge hEdges e

theorem Records.takeAll {before : List Call} (h : d.Records before) (calls : List Call) :
    (calls.foldl Draft.take d).Records (before ++ calls) := by
  induction calls generalizing d before with
  | nil =>
    rw [List.append_nil]
    exact h
  | cons call calls ih =>
    rw [← List.singleton_append, ← List.append_assoc]
    exact ih (h.take call)

end Step

section Recorded

variable {d : Draft} {calls : List Call} (h : d.Records calls)

include h

theorem Records.toGraph_eq :
    d.toGraph =
      Graph.ofParts (calls.filterMap Call.givenNode?) (calls.filterMap Call.givenEdge?) := by
  have hEdge : ∀ e, Graph.GivenEdge (edgesOf calls) e ↔
      Graph.GivenEdge (calls.filterMap Call.givenEdge?) e := by
    intro e
    rw [Graph.GivenEdge, mem_edgesOf, Graph.GivenEdge, and_assoc, and_self]
  rw [toGraph, h.labels, h.edges, Graph.ofParts_eq_iff]
  refine ⟨fun l => ?_, hEdge⟩
  rw [Graph.GivenNode, mem_labelsOf]
  constructor
  · rintro (hNode | ⟨e, hMem, hProper, hEnd⟩)
    · exact hNode
    · exact .inr ⟨e, (mem_edgesOf.mp hMem).1, hProper, hEnd⟩
  · exact .inl

theorem Records.length_labels : d.labels.length = (calls.flatMap Call.labels).toFinset.card := by
  rw [h.labels, labelsOf, length_eraseDups]

theorem Records.length_edges : d.edges.length = (calls.flatMap Call.edges).toFinset.card := by
  rw [h.edges, edgesOf, length_eraseDups]

end Recorded

end Draft

end ModuleAtlas
