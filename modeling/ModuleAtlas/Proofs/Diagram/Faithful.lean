import ModuleAtlas.Proofs.Diagram.Lines
import ModuleAtlas.Proofs.Graph.Search

/-!
# What a diagram says of its graph

Two graphs in normal form, which are those built from parts (`Graph.normal_iff`), are drawn alike
exactly if they have equally many nodes, their labels agree place by place once the quotes are
escaped, and their edges join the same places. So the only thing a diagram can hide is whether a
quote was written as a quote or as its entity.
-/

namespace ModuleAtlas

/-- Some edge leads from the node at the first place to the node at the second. -/
def Graph.Joins (g : Graph) (i j : Nat) : Prop :=
  ∃ e ∈ g.edges, g.nodes[i]? = some e.source ∧ g.nodes[j]? = some e.target

namespace Diagram

open Std

/-! ## Escaping -/

def entity : List Char := "#quot;".toList

def escaped (text : List Char) : List Char :=
  text.flatMap fun c => if c = '"' then entity else [c]

theorem toList_escape (label : String) : (escape label).toList = escaped label.toList :=
  String.toList_ofList

@[simp] theorem escaped_quote (text : List Char) :
    escaped ('"' :: text) = '#' :: ("quot;".toList ++ escaped text) := rfl

theorem escaped_cons {c : Char} (hc : c ≠ '"') (text : List Char) :
    escaped (c :: text) = c :: escaped text := by
  rw [escaped, List.flatMap_cons, if_neg hc, List.singleton_append, escaped]

theorem escaped_cons_ne_nil (c : Char) (text : List Char) : escaped (c :: text) ≠ [] := by
  by_cases hc : c = '"'
  · subst hc
    exact List.cons_ne_nil _ _
  · rw [escaped_cons hc]
    exact List.cons_ne_nil _ _

/-- Characters that cannot start an entity stand in the text as they are. -/
theorem copied_isPrefix {text copied rest : List Char} (hPlain : '#' ∉ copied)
    (hText : escaped text = copied ++ rest) : copied <+: text := by
  induction copied generalizing text with
  | nil => exact List.nil_prefix
  | cons c copied ih =>
    obtain ⟨hFirst, hLater⟩ := List.ne_and_not_mem_of_not_mem_cons hPlain
    cases text with
    | nil => cases hText
    | cons d text =>
      by_cases hQuote : d = '"'
      · subst hQuote
        rw [escaped_quote, List.cons_append, List.cons.injEq] at hText
        exact absurd hText.1 hFirst
      · rw [escaped_cons hQuote, List.cons_append, List.cons.injEq] at hText
        obtain ⟨rfl, hText⟩ := hText
        exact List.cons_prefix_cons.mpr ⟨rfl, ih hLater hText⟩

theorem entity_isPrefix {c : Char} {text text' : List Char} (hc : c ≠ '"')
    (hSame : escaped ('"' :: text) = escaped (c :: text')) : entity <+: c :: text' := by
  rw [escaped_quote, escaped_cons hc, List.cons.injEq] at hSame
  obtain ⟨rfl, hRest⟩ := hSame
  -- The rest of the entity holds no hash, so none of it can come from another escaped quote.
  exact List.cons_prefix_cons.mpr ⟨rfl, copied_isPrefix (by decide) hRest.symm⟩

theorem escaped_inj {text text' : List Char} (hFree : ¬ entity <:+: text)
    (hFree' : ¬ entity <:+: text') (hSame : escaped text = escaped text') : text = text' := by
  induction text generalizing text' with
  | nil =>
    cases text' with
    | nil => rfl
    | cons d text' => exact absurd hSame.symm (escaped_cons_ne_nil d text')
  | cons c text ih =>
    cases text' with
    | nil => exact absurd hSame (escaped_cons_ne_nil c text)
    | cons d text' =>
      have hTail : ¬ entity <:+: text := fun h => hFree (List.infix_cons h)
      have hTail' : ¬ entity <:+: text' := fun h => hFree' (List.infix_cons h)
      by_cases hc : c = '"'
      · subst hc
        by_cases hd : d = '"'
        · subst hd
          rw [escaped_quote, escaped_quote, List.cons.injEq, List.append_cancel_left_eq] at hSame
          rw [ih hTail hTail' hSame.2]
        · exact absurd (entity_isPrefix hd hSame).isInfix hFree'
      · by_cases hd : d = '"'
        · subst hd
          exact absurd (entity_isPrefix hc hSame.symm).isInfix hFree
        · rw [escaped_cons hc, escaped_cons hd, List.cons.injEq] at hSame
          rw [hSame.1, ih hTail hTail' hSame.2]

theorem escape_inj {label label' : String} (hFree : ¬ entity <:+: label.toList)
    (hFree' : ¬ entity <:+: label'.toList) (hSame : escape label = escape label') :
    label = label' := by
  have hText := congrArg String.toList hSame
  rw [toList_escape, toList_escape] at hText
  exact String.toList_inj.mp (escaped_inj hFree hFree' hText)

/-! ## Places of nodes -/

variable {g g' : Graph}

theorem ends?_eq_some_iff (hg : g.Normal) {e : Edge} {i j : Nat} :
    ends? g e = some (i, j) ↔ g.nodes[i]? = some e.source ∧ g.nodes[j]? = some e.target := by
  rw [← hg.position?_eq_some_iff, ← hg.position?_eq_some_iff, ends?]
  split
  · rename_i a b ha hb
    simp [ha, hb]
  · rename_i hMissing
    constructor
    · intro hNone
      cases hNone
    · rintro ⟨hi, hj⟩
      exact absurd hj (hMissing i j hi)

theorem exists_ends (hg : g.Normal) {e : Edge} (he : e ∈ g.edges) :
    ∃ i j : Nat, g.nodes[i]? = some e.source ∧ g.nodes[j]? = some e.target := by
  obtain ⟨hSource, hTarget⟩ := hg.ends e he
  obtain ⟨i, hi⟩ := List.mem_iff_getElem?.mp hSource
  obtain ⟨j, hj⟩ := List.mem_iff_getElem?.mp hTarget
  exact ⟨i, j, hi, hj⟩

theorem mem_ends_iff (hg : g.Normal) {i j : Nat} :
    (i, j) ∈ g.edges.filterMap (ends? g) ↔ g.Joins i j := by
  simp only [List.mem_filterMap, ends?_eq_some_iff hg, Graph.Joins]

theorem ends_increasing (hg : g.Normal) :
    @Increasing (Nat × Nat) lexOrd (g.edges.filterMap (ends? g)) := by
  apply hg.edges_increasing.filterMap
  rintro e e' hLess ⟨i, j⟩ hEnds ⟨i', j'⟩ hEnds'
  obtain ⟨hi, hj⟩ := (ends?_eq_some_iff hg).mp hEnds
  obtain ⟨hi', hj'⟩ := (ends?_eq_some_iff hg).mp hEnds'
  -- Labels in increasing order compare as their places do, at both ends of an edge.
  change (compare i i').then (compare j j') = .lt
  rw [← hg.nodes_increasing.compare_eq hi hi', ← hg.nodes_increasing.compare_eq hj hj']
  exact hLess

theorem edgeLines_eq_iff (hg : g.Normal) (hg' : g'.Normal) :
    edgeLines g = edgeLines g' ↔ ∀ i j, g.Joins i j ↔ g'.Joins i j := by
  let : Ord (Nat × Nat) := lexOrd
  have hInjective : Function.Injective fun p : Nat × Nat => Line.edge p.1 p.2 := by
    rintro ⟨i, j⟩ ⟨i', j'⟩ hSame
    cases hSame
    rfl
  rw [edgeLines, edgeLines, hInjective.list_map.eq_iff]
  constructor
  · intro hSame i j
    rw [← mem_ends_iff hg, hSame, mem_ends_iff hg']
  · intro hJoins
    apply (ends_increasing hg).eq_of_mem_iff (ends_increasing hg')
    rintro ⟨i, j⟩
    rw [mem_ends_iff hg, hJoins, mem_ends_iff hg']

theorem nodeLines_eq_iff :
    nodeLines g = nodeLines g' ↔ g.nodes.length = g'.nodes.length ∧
      ∀ (i : Nat) (l l' : String), g.nodes[i]? = some l → g'.nodes[i]? = some l' →
        escape l = escape l' := by
  constructor
  · intro hSame
    refine ⟨by simpa [nodeLines] using congrArg List.length hSame, fun i l l' hl hl' => ?_⟩
    have hLine : (nodeLines g)[i]? = (nodeLines g')[i]? := by rw [hSame]
    simpa [nodeLines, hl, hl'] using hLine
  · rintro ⟨hLength, hLabels⟩
    apply List.ext_getElem
    · simpa [nodeLines] using hLength
    · intro i hi hi'
      simp only [nodeLines, List.length_mapIdx] at hi hi'
      simp only [nodeLines, List.getElem_mapIdx]
      rw [hLabels i _ _ (List.getElem?_eq_getElem hi) (List.getElem?_eq_getElem hi')]

/-! ## Drawing alike -/

theorem edges_subset_of_joins (hg : g.Normal) (hNodes : g.nodes = g'.nodes)
    (hJoins : ∀ i j, g.Joins i j → g'.Joins i j) {e : Edge} (he : e ∈ g.edges) : e ∈ g'.edges := by
  obtain ⟨i, j, hi, hj⟩ := exists_ends hg he
  obtain ⟨e', he', hi', hj'⟩ := hJoins i j ⟨e, he, hi, hj⟩
  rw [← hNodes, hi, Option.some_inj] at hi'
  rw [← hNodes, hj, Option.some_inj] at hj'
  have hSame : e = e' := by
    cases e
    cases e'
    congr
  rwa [hSame]

theorem eq_of_joins (hg : g.Normal) (hg' : g'.Normal) (hNodes : g.nodes = g'.nodes)
    (hJoins : ∀ i j, g.Joins i j ↔ g'.Joins i j) : g = g' := by
  apply hg.ext hg'
  · exact fun l => by rw [hNodes]
  · intro e
    constructor
    · exact edges_subset_of_joins hg hNodes fun i j => (hJoins i j).mp
    · exact edges_subset_of_joins hg' hNodes.symm fun i j => (hJoins i j).mpr

theorem edgeLine?_of_mem (hg : g.Normal) {e : Edge} (he : e ∈ g.edges) :
    ∃ i j : Nat, g.nodes[i]? = some e.source ∧ g.nodes[j]? = some e.target ∧
      edgeLine? g e = some (nodeId i ++ " --> " ++ nodeId j) := by
  obtain ⟨i, j, hi, hj⟩ := exists_ends hg he
  refine ⟨i, j, hi, hj, ?_⟩
  rw [edgeLine?_eq, (ends?_eq_some_iff hg).mpr ⟨hi, hj⟩]
  rfl

theorem render_eq_iff (hg : g.Normal) (hg' : g'.Normal) (fence : Fence) :
    render fence g = render fence g' ↔
      g.nodes.length = g'.nodes.length ∧
      (∀ (i : Nat) (l l' : String), g.nodes[i]? = some l → g'.nodes[i]? = some l' →
        escape l = escape l') ∧
      ∀ i j, g.Joins i j ↔ g'.Joins i j := by
  rw [render_eq_iff_lines, nodeLines_eq_iff, edgeLines_eq_iff hg hg', and_assoc]

theorem nodes_eq_of_labels (hLength : g.nodes.length = g'.nodes.length)
    (hLabels : ∀ (i : Nat) (l l' : String), g.nodes[i]? = some l → g'.nodes[i]? = some l' →
      escape l = escape l')
    (hFree : ∀ l ∈ g.nodes, ¬ entity <:+: l.toList)
    (hFree' : ∀ l ∈ g'.nodes, ¬ entity <:+: l.toList) : g.nodes = g'.nodes := by
  apply List.ext_getElem hLength
  intro i hi hi'
  apply escape_inj (hFree _ (List.getElem_mem hi)) (hFree' _ (List.getElem_mem hi'))
  exact hLabels i _ _ (List.getElem?_eq_getElem hi) (List.getElem?_eq_getElem hi')

/-- The text of a diagram gives its graph back but for the quotes in labels: it fixes the number of
nodes, each escaped label and which places are joined, and no edge is left out of it. -/
theorem rendering_loses_only_quotes (hg : g.Normal) (hg' : g'.Normal) (fence : Fence) :
    (render fence g = render fence g' ↔
      g.nodes.length = g'.nodes.length ∧
      (∀ (i : Nat) (l l' : String), g.nodes[i]? = some l → g'.nodes[i]? = some l' →
        escape l = escape l') ∧
      ∀ i j, g.Joins i j ↔ g'.Joins i j) ∧
    (∀ e ∈ g.edges, ∃ i j : Nat, g.nodes[i]? = some e.source ∧ g.nodes[j]? = some e.target ∧
      edgeLine? g e = some (nodeId i ++ " --> " ++ nodeId j)) ∧
    ((∀ l ∈ g.nodes, ¬ "#quot;".toList <:+: l.toList) →
      (∀ l ∈ g'.nodes, ¬ "#quot;".toList <:+: l.toList) →
      render fence g = render fence g' → g = g') := by
  refine ⟨render_eq_iff hg hg' fence, fun e he => edgeLine?_of_mem hg he, ?_⟩
  intro hFree hFree' hSame
  obtain ⟨hLength, hLabels, hJoins⟩ := (render_eq_iff hg hg' fence).mp hSame
  exact eq_of_joins hg hg' (nodes_eq_of_labels hLength hLabels hFree hFree') hJoins

def forged : Graph := ⟨["a", "b\"]\nn1 --> n2"], []⟩

def joined : Graph := ⟨["a", "b"], [⟨"a", "b"⟩]⟩

/-- A label that spells the line of an edge does not pass for one. -/
theorem forged_differs_from_joined :
    forged.Normal ∧ joined.Normal ∧ render .bare forged ≠ render .bare joined := by
  have hForged : forged.Normal := by decide +kernel
  have hJoined : joined.Normal := by decide +kernel
  refine ⟨hForged, hJoined, fun hSame => ?_⟩
  have hEqual := (rendering_loses_only_quotes hForged hJoined .bare).2.2
    (by decide +kernel) (by decide +kernel) hSame
  exact absurd hEqual (by decide)

example : render .bare ⟨["\""], []⟩ = render .bare ⟨["#quot;"], []⟩ := by decide +kernel

end Diagram

end ModuleAtlas
