import ModuleAtlas.Proofs.Dictionary
import ModuleAtlas.Proofs.Graph.Calls

/-!
# Numbered drafts stand for drafts

Over a lawful store a numbered draft stands for a draft: the store's labels are the draft's, in the
order of their numbers, the dictionary inverts them, and the store's pairs of numbers are the
draft's edges. Adding labels and edges keeps that up, whatever the calls, so store and dictionary
never disagree and what the calls answer depends on the labels alone.
-/

namespace ModuleAtlas

open NodeStore

theorem getElem?_concat {α : Type} (xs : List α) (x : α) (i : Nat) :
    (xs ++ [x])[i]? = if i = xs.length then some x else xs[i]? := by
  split
  · next hLast =>
    subst hLast
    exact List.getElem?_concat_length
  · next hOther =>
    rcases Nat.lt_or_gt_of_ne hOther with hOld | hBeyond
    · exact List.getElem?_append_left hOld
    · have hEnd : (xs ++ [x]).length ≤ i := by rwa [List.length_append]
      rw [List.getElem?_eq_none hEnd, List.getElem?_eq_none hBeyond.le]

theorem idxOf_of_getElem? {α : Type} [BEq α] [LawfulBEq α] {xs : List α} (h : xs.Nodup) {i : Nat}
    {x : α} (hPlace : xs[i]? = some x) : xs.idxOf x = i := by
  obtain ⟨hLess, rfl⟩ := List.getElem?_eq_some_iff.mp hPlace
  exact h.idxOf_getElem i hLess

theorem exists_mapM_eq_some {α β : Type} {f : α → Option β} {xs : List α}
    (h : ∀ x ∈ xs, ∃ y, f x = some y) : ∃ ys, xs.mapM f = some ys ∧ xs.map f = ys.map some := by
  induction xs with
  | nil => exact ⟨[], rfl, rfl⟩
  | cons x xs ih =>
    obtain ⟨⟨y, hFirst⟩, hRest⟩ := List.forall_mem_cons.mp h
    obtain ⟨ys, hMapM, hMap⟩ := ih hRest
    refine ⟨y :: ys, ?_, ?_⟩
    · rw [List.mapM_cons, hFirst, hMapM]
      rfl
    · rw [List.map_cons, List.map_cons, hFirst, hMap]

instance : LawfulNodeStore Arena where
  nodeCount_empty := rfl
  label?_empty _ := rfl
  edges_empty := rfl
  number_addNode _ := rfl
  nodeCount_addNode _ := List.length_append
  label?_addNode _ := getElem?_concat _ _ _
  edges_addNode _ := .refl _
  nodeCount_updateEdge _ _ _ := rfl
  label?_updateEdge _ _ _ := rfl
  edges_updateEdge _ _ _ := .refl _
  mem_nodes _ := List.mem_range
  length_edges _ := rfl

namespace NumberedDraft

variable {σ : Type} [NodeStore σ]

structure Represents (g : NumberedDraft σ) (d : Draft) : Prop where
  grown : Grown g.store
  nodeCount_eq : NodeStore.nodeCount g.store = d.labels.length
  label?_eq : ∀ i, label? g.store i = d.labels[i]?
  number?_iff : ∀ l i, g.numbers.get? l = some i ↔ d.labels[i]? = some l
  edges_perm : ((edges g.store).map (edge? g.store)).Perm (d.edges.map some)

theorem edge?_eq_some_iff {s : σ} {ends : Nat × Nat} {e : Edge} :
    edge? s ends = some e ↔ label? s ends.1 = some e.source ∧ label? s ends.2 = some e.target := by
  obtain ⟨source, target⟩ := e
  simp only [edge?, Option.bind_eq_bind, Option.bind_eq_some_iff, Option.pure_def,
    Option.some.injEq, Edge.mk.injEq]
  constructor
  · rintro ⟨l, hSource, l', hTarget, rfl, rfl⟩
    exact ⟨hSource, hTarget⟩
  · rintro ⟨hSource, hTarget⟩
    exact ⟨source, hSource, target, hTarget, rfl, rfl⟩

section Reading

variable {g : NumberedDraft σ} {d : Draft} (h : g.Represents d)

include h

theorem Represents.lt_nodeCount {i : Nat} {l : String} (hLabel : d.labels[i]? = some l) :
    i < NodeStore.nodeCount g.store := by
  rw [h.nodeCount_eq]
  exact (List.getElem?_eq_some_iff.mp hLabel).1

theorem Represents.number?_eq_none_iff {l : String} :
    g.numbers.get? l = none ↔ l ∉ d.labels := by
  rw [Option.eq_none_iff_forall_ne_some, List.mem_iff_getElem?]
  simp only [ne_eq, h.number?_iff, not_exists]

theorem Represents.number_inj {i j : Nat} {l : String} (hi : d.labels[i]? = some l)
    (hj : d.labels[j]? = some l) : i = j := by
  have hNumber : g.numbers.get? l = some i := (h.number?_iff l i).mpr hi
  rw [(h.number?_iff l j).mpr hj, Option.some.injEq] at hNumber
  exact hNumber.symm

theorem Represents.edge?_iff {ends : Nat × Nat} {e : Edge} :
    edge? g.store ends = some e ↔
      d.labels[ends.1]? = some e.source ∧ d.labels[ends.2]? = some e.target := by
  rw [edge?_eq_some_iff, h.label?_eq, h.label?_eq]

theorem Represents.exists_edge {ends : Nat × Nat} (hMem : ends ∈ edges g.store) :
    ∃ e ∈ d.edges, edge? g.store ends = some e := by
  have hEdge := h.edges_perm.mem_iff.mp (List.mem_map_of_mem hMem)
  obtain ⟨e, hKept, hEdge⟩ := List.mem_map.mp hEdge
  exact ⟨e, hKept, hEdge.symm⟩

/-- The store has the pair of two labels' numbers exactly if the draft has their edge. -/
theorem Represents.mem_edges_iff {a b : Nat} {e : Edge} (hSource : d.labels[a]? = some e.source)
    (hTarget : d.labels[b]? = some e.target) : (a, b) ∈ edges g.store ↔ e ∈ d.edges := by
  have hEdge : edge? g.store (a, b) = some e := h.edge?_iff.mpr ⟨hSource, hTarget⟩
  constructor
  · intro hMem
    obtain ⟨e', hKept, hEdge'⟩ := h.exists_edge hMem
    rw [hEdge, Option.some.injEq] at hEdge'
    rwa [hEdge']
  · intro hKept
    have hMem := h.edges_perm.mem_iff.mpr (List.mem_map_of_mem hKept)
    obtain ⟨⟨a', b'⟩, hMem, hEdge'⟩ := List.mem_map.mp hMem
    obtain ⟨hSource', hTarget'⟩ := h.edge?_iff.mp hEdge'
    rwa [h.number_inj hSource hSource', h.number_inj hTarget hTarget']

end Reading

section Step

variable [LawfulNodeStore σ]

theorem represents_empty : (empty : NumberedDraft σ).Represents .empty where
  grown := .empty
  nodeCount_eq := LawfulNodeStore.nodeCount_empty
  label?_eq := LawfulNodeStore.label?_empty
  number?_iff l i := by simp [empty, Draft.empty, Dictionary.get?_empty]
  edges_perm := by
    have hNone : edges (empty : NumberedDraft σ).store = [] := LawfulNodeStore.edges_empty
    rw [hNone]
    exact .refl _

variable {g : NumberedDraft σ} {d : Draft} (h : g.Represents d)

include h

/-- A new node takes the first number that is free, so the ends of the edges keep theirs. -/
theorem Represents.addNew {l : String} (hNew : l ∉ d.labels) :
    NumberedDraft.Represents
      ⟨(NodeStore.addNode g.store l).2, g.numbers.insert l d.labels.length⟩
      ⟨d.labels ++ [l], d.edges⟩ where
  grown := h.grown.addNode l
  nodeCount_eq := by
    rw [LawfulNodeStore.nodeCount_addNode h.grown, h.nodeCount_eq, List.length_append]
    rfl
  label?_eq i := by
    rw [LawfulNodeStore.label?_addNode h.grown, h.nodeCount_eq, h.label?_eq, getElem?_concat]
  number?_iff l' i := by
    rw [Dictionary.get?_insert, getElem?_concat]
    by_cases hSame : l' = l
    · subst hSame
      rw [if_pos rfl]
      split
      · simp [*]
      · next hOther =>
        have hAbsent : d.labels[i]? ≠ some l' := fun hMem => hNew (List.mem_of_getElem? hMem)
        simp [hAbsent, Ne.symm hOther]
    · rw [if_neg hSame, h.number?_iff]
      split
      · next hLast => simp [hLast, Ne.symm hSame]
      · rfl
  edges_perm := by
    have hKept : ∀ ends ∈ edges g.store,
        edge? (NodeStore.addNode g.store l).2 ends = edge? g.store ends := by
      intro ends hMem
      obtain ⟨e, -, hEdge⟩ := h.exists_edge hMem
      obtain ⟨hSource, hTarget⟩ := h.edge?_iff.mp hEdge
      rw [hEdge, edge?_eq_some_iff, LawfulNodeStore.label?_addNode h.grown,
        LawfulNodeStore.label?_addNode h.grown, if_neg (h.lt_nodeCount hSource).ne,
        if_neg (h.lt_nodeCount hTarget).ne, h.label?_eq, h.label?_eq]
      exact ⟨hSource, hTarget⟩
    have hPairs := (LawfulNodeStore.edges_addNode (l := l) h.grown).map
      (edge? (NodeStore.addNode g.store l).2)
    rw [List.map_congr_left hKept] at hPairs
    exact hPairs.trans h.edges_perm

theorem Represents.addNode (l : String) :
    (g.addNode l).2.Represents (d.addNode l) ∧
      (d.addNode l).labels[(g.addNode l).1]? = some l := by
  rw [NumberedDraft.addNode, Draft.addNode]
  cases hNumber : g.numbers.get? l with
  | some i =>
    have hLabel : d.labels[i]? = some l := (h.number?_iff l i).mp hNumber
    rw [if_pos (by simpa using List.mem_of_getElem? hLabel)]
    exact ⟨h, hLabel⟩
  | none =>
    have hNew : l ∉ d.labels := h.number?_eq_none_iff.mp hNumber
    have hNext : (NodeStore.addNode g.store l).1 = d.labels.length :=
      (LawfulNodeStore.number_addNode h.grown).trans h.nodeCount_eq
    rw [if_neg (by simpa using hNew)]
    dsimp only
    rw [hNext]
    exact ⟨h.addNew hNew, List.getElem?_concat_length⟩

theorem Represents.updateEdge {a b : Nat} {e : Edge} (hSource : d.labels[a]? = some e.source)
    (hTarget : d.labels[b]? = some e.target) :
    NumberedDraft.Represents { g with store := NodeStore.updateEdge g.store a b }
      (if d.edges.contains e then d else { d with edges := d.edges ++ [e] }) := by
  have ha : a < NodeStore.nodeCount g.store := h.lt_nodeCount hSource
  have hb : b < NodeStore.nodeCount g.store := h.lt_nodeCount hTarget
  have hLabels : (if d.edges.contains e then d else { d with edges := d.edges ++ [e] }).labels =
      d.labels := by
    split
    · rfl
    · rfl
  constructor
  · exact h.grown.updateEdge ha hb
  · rw [LawfulNodeStore.nodeCount_updateEdge h.grown ha hb, hLabels, h.nodeCount_eq]
  · intro i
    rw [LawfulNodeStore.label?_updateEdge h.grown ha hb, hLabels, h.label?_eq]
  · rw [hLabels]
    exact h.number?_iff
  · have hSame : edge? (NodeStore.updateEdge g.store a b) = edge? g.store := by
      funext ends
      rw [edge?, LawfulNodeStore.label?_updateEdge h.grown ha hb,
        LawfulNodeStore.label?_updateEdge h.grown ha hb, edge?]
    have hPairs := (LawfulNodeStore.edges_updateEdge h.grown ha hb).map (edge? g.store)
    dsimp only
    rw [hSame]
    refine hPairs.trans ?_
    split
    · next hKnown =>
      have hKnown : (a, b) ∈ edges g.store :=
        (h.mem_edges_iff hSource hTarget).mpr (by simpa using hKnown)
      rw [List.insert_of_mem hKnown]
      exact h.edges_perm
    · next hNew =>
      have hNew : (a, b) ∉ edges g.store := fun hMem =>
        hNew (by simpa using (h.mem_edges_iff hSource hTarget).mp hMem)
      rw [List.insert_of_not_mem hNew, List.map_cons, h.edge?_iff.mpr ⟨hSource, hTarget⟩,
        List.map_append]
      exact (h.edges_perm.cons _).trans (List.perm_append_singleton _ _).symm

theorem Represents.addEdge (e : Edge) : (g.addEdge e).2.Represents (d.addEdge e) := by
  rw [NumberedDraft.addEdge, Draft.addEdge]
  split
  · exact h
  · obtain ⟨hSource, hFirst⟩ := h.addNode e.source
    obtain ⟨hTarget, hSecond⟩ := hSource.addNode e.target
    have hKept : ((d.addNode e.source).addNode e.target).labels[(g.addNode e.source).1]? =
        some e.source := Draft.getElem?_labels_addNode hFirst
    exact hTarget.updateEdge hKept hSecond

theorem Represents.edgeCount_eq : g.edgeCount = d.edges.length := by
  have hLength := h.edges_perm.length_eq
  rwa [List.length_map, List.length_map, LawfulNodeStore.length_edges h.grown] at hLength

theorem Represents.toGraph?_eq : g.toGraph? = some d.toGraph := by
  obtain ⟨es, hEdges, hPairs⟩ := exists_mapM_eq_some fun ends hMem =>
    (h.exists_edge hMem).imp fun e he => he.2
  obtain ⟨ls, hLabels, hNumbers⟩ :
      ∃ ls, (nodes g.store).mapM (label? g.store) = some ls ∧
        (nodes g.store).map (label? g.store) = ls.map some := by
    refine exists_mapM_eq_some fun i hMem => ?_
    rw [LawfulNodeStore.mem_nodes h.grown, h.nodeCount_eq] at hMem
    exact ⟨_, (h.label?_eq i).trans (List.getElem?_eq_getElem hMem)⟩
  have hSameEdges : ∀ e, e ∈ es ↔ e ∈ d.edges := fun e => by
    have hPerm := h.edges_perm.mem_iff (a := some e)
    rw [hPairs] at hPerm
    simpa using hPerm
  have hSameLabels : ∀ l, l ∈ ls ↔ l ∈ d.labels := fun l => by
    have hMem : some l ∈ (nodes g.store).map (label? g.store) ↔ l ∈ d.labels := by
      rw [List.mem_map, List.mem_iff_getElem?]
      simp only [LawfulNodeStore.mem_nodes h.grown, h.label?_eq]
      exact exists_congr fun i => and_iff_right_of_imp h.lt_nodeCount
    rw [hNumbers] at hMem
    simpa using hMem
  have hGraph : Graph.ofParts ls es = d.toGraph := by
    rw [Draft.toGraph, Graph.ofParts_eq_iff]
    simp only [Graph.GivenNode, Graph.GivenEdge, hSameEdges, hSameLabels, implies_true, and_self]
  rw [toGraph?, hEdges, hLabels, ← hGraph]
  rfl

end Step

/-! ## Runs -/

section Run

variable [LawfulNodeStore σ] {g : NumberedDraft σ} {d : Draft}

theorem Represents.perform (h : g.Represents d) (call : Call) :
    (g.perform call).2.Represents (d.take call) := by
  cases call with
  | node l => exact (h.addNode l).1
  | edge e => exact h.addEdge e

theorem Represents.performAll (h : g.Represents d) (calls : List Call) :
    (g.performAll calls).2.Represents (calls.foldl Draft.take d) := by
  induction calls generalizing g d with
  | nil => exact h
  | cons call calls ih => exact ih (h.perform call)

/-- A call already answers what the labels of all calls, later ones included, say. -/
theorem Represents.answer_eq (h : g.Represents d) {before : List Call} (hRecords : d.Records before)
    (call : Call) (calls : List Call) :
    (g.perform call).1 = call.answer (labelsOf (before ++ call :: calls)) := by
  cases call with
  | node l =>
    obtain ⟨hAfter, hLabel⟩ := h.addNode l
    have hLabels : (d.addNode l).labels = labelsOf (before ++ [.node l]) :=
      (hRecords.take (.node l)).labels
    rw [hLabels] at hLabel
    have hMem : l ∈ (before ++ [Call.node l]).flatMap Call.labels := by simp [Call.labels]
    have hPlace := idxOf_eraseDups_append hMem (calls.flatMap Call.labels)
    rw [← List.flatMap_append, List.append_assoc, List.singleton_append] at hPlace
    rw [Call.answer, labelsOf, hPlace]
    exact congrArg Answer.number (idxOf_of_getElem? (nodup_eraseDups _) hLabel).symm
  | edge e =>
    have hAdded : (g.addEdge e).1 = ! e.isLoop := by
      rw [NumberedDraft.addEdge]
      split
      · next hLoop => rw [hLoop, Bool.not_true]
      · next hProper => rw [Bool.eq_false_iff.mpr hProper, Bool.not_false]
    exact congrArg Answer.added hAdded

theorem Represents.answers_eq (h : g.Represents d) {before : List Call}
    (hRecords : d.Records before) (calls : List Call) :
    (g.performAll calls).1 = calls.map (Call.answer (labelsOf (before ++ calls))) := by
  induction calls generalizing g d before with
  | nil => rfl
  | cons call calls ih =>
    have hRest := ih (h.perform call) (hRecords.take call)
    rw [List.append_assoc, List.singleton_append] at hRest
    rw [NumberedDraft.performAll, List.map_cons, ← h.answer_eq hRecords call calls]
    dsimp only
    rw [hRest]

end Run

/-- Whatever calls are made on a new draft over a lawful store, the store and the dictionary are
inverse to each other at every point, with as many nodes and edges as labels and proper edges have
appeared, and the draft freezes to the graph built from all that was given. Adding an edge tells
whether it is no loop. Adding a label answers how many labels appeared before this one first did, in
the order of the calls and from source to target; so it answers the same for the same label at any
time, and different numbers for different labels. -/
theorem numbered_draft_refines_normal_form {σ : Type} [NodeStore σ] [LawfulNodeStore σ]
    (calls : List Call) :
    let answers := ((empty : NumberedDraft σ).performAll calls).1
    let g := ((empty : NumberedDraft σ).performAll calls).2
    g.toGraph? =
      some (Graph.ofParts (calls.filterMap Call.givenNode?) (calls.filterMap Call.givenEdge?)) ∧
    (∀ k, let soFar := calls.take k
      let g := ((empty : NumberedDraft σ).performAll soFar).2
      g.nodeCount = (soFar.flatMap Call.labels).toFinset.card ∧
        g.edgeCount = (soFar.flatMap Call.edges).toFinset.card ∧
        ∀ l i, g.numbers.get? l = some i ↔ label? g.store i = some l) ∧
    (∀ (k : Nat) (e : Edge), calls[k]? = some (.edge e) →
      ∃ b, answers[k]? = some (.added b) ∧ (b = true ↔ e.source ≠ e.target)) ∧
    (∀ (k : Nat) (l : String), calls[k]? = some (.node l) →
      ∃ before rest, calls.flatMap Call.labels = before ++ l :: rest ∧ l ∉ before ∧
        answers[k]? = some (.number before.toFinset.card)) ∧
    ∀ (j k : Nat) (l l' : String) (i i' : Nat), calls[j]? = some (.node l) →
      calls[k]? = some (.node l') → answers[j]? = some (.number i) →
      answers[k]? = some (.number i') → (i = i' ↔ l = l') := by
  intro answers g
  have hRun : ∀ calls : List Call, ((empty : NumberedDraft σ).performAll calls).2.Represents
      (calls.foldl Draft.take .empty) := represents_empty.performAll
  have hRecords : ∀ calls : List Call, (calls.foldl Draft.take .empty).Records calls :=
    Draft.records_empty.takeAll
  have hAnswer : ∀ {k : Nat} {call : Call}, calls[k]? = some call →
      answers[k]? = some (call.answer (labelsOf calls)) := by
    intro k call hCall
    have hAnswers : answers = calls.map (Call.answer (labelsOf ([] ++ calls))) :=
      represents_empty.answers_eq Draft.records_empty calls
    rw [hAnswers, List.nil_append, List.getElem?_map, hCall]
    rfl
  refine ⟨?_, fun k => ⟨?_, ?_, fun l i => ?_⟩, fun k e hCall => ⟨_, hAnswer hCall, by simp⟩,
    fun k l hCall => ?_, fun j k l l' i i' hCall hCall' hNumber hNumber' => ?_⟩
  · rw [(hRun calls).toGraph?_eq, (hRecords calls).toGraph_eq]
  · exact (hRun _).nodeCount_eq.trans (hRecords _).length_labels
  · exact (hRun _).edgeCount_eq.trans (hRecords _).length_edges
  · rw [(hRun _).number?_iff, (hRun _).label?_eq]
  · obtain ⟨before, rest, hSplit, hNew, hPlace⟩ := idxOf_labelsOf (List.mem_of_getElem? hCall)
    refine ⟨before, rest, hSplit, hNew, ?_⟩
    rw [hAnswer hCall, Call.answer, hPlace]
  · rw [hAnswer hCall] at hNumber
    rw [hAnswer hCall'] at hNumber'
    cases hNumber
    cases hNumber'
    exact List.idxOf_inj (mem_labelsOf_of_node (List.mem_of_getElem? hCall))

/-- An edge brings in its ends before the label that was asked for, and a loop brings in nothing. -/
theorem arena_numbers_labels :
    LawfulNodeStore Arena ∧
      let calls : List Call := [.edge ⟨"b", "a"⟩, .node "c", .edge ⟨"d", "d"⟩, .node "a"]
      let run := (empty : NumberedDraft Arena).performAll calls
      run.1 = [.added true, .number 2, .added false, .number 1] ∧
        run.2.toGraph? = some (Graph.ofParts ["c", "a"] [⟨"b", "a"⟩, ⟨"d", "d"⟩]) :=
  ⟨inferInstance, by decide, (numbered_draft_refines_normal_form
    [.edge ⟨"b", "a"⟩, .node "c", .edge ⟨"d", "d"⟩, .node "a"]).1⟩

end NumberedDraft

end ModuleAtlas
