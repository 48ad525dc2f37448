import Mathlib.Data.List.Nodup
import ModuleAtlas.Project.Files
import ModuleAtlas.Proofs.Dictionary
import ModuleAtlas.Proofs.Resolver

/-!
# Choosing a rewriting

A resolver is put together by calls that register rewritings or set a base. Its table is kept sorted
by a stable sort, the longest beginnings first, so the first match is the longest registered
beginning, and the one registered first among equal ones. Where the beginnings are distinct, the
calls can come in any order and any grouping.
-/

namespace ModuleAtlas

theorem Text.length_le_of_size_le {s front front' rest rest' : String} (h : s = front ++ rest)
    (h' : s = front' ++ rest') (hSize : front.utf8ByteSize ≤ front'.utf8ByteSize) :
    front.length ≤ front'.length := by
  by_contra hLonger
  have hPrefix : front'.toList <+: front.toList := by
    have hFront : front.toList <+: s.toList := by
      rw [h, String.toList_append]
      exact List.prefix_append _ _
    have hFront' : front'.toList <+: s.toList := by
      rw [h', String.toList_append]
      exact List.prefix_append _ _
    apply List.prefix_of_prefix_length_le hFront' hFront
    rw [String.length_toList, String.length_toList]
    omega
  obtain ⟨more, hMore⟩ := hPrefix
  have hFront : front = front' ++ String.ofList more := by
    rw [← String.toList_inj, String.toList_append, String.toList_ofList, hMore]
  have hEmpty : (String.ofList more).utf8ByteSize = 0 := by
    rw [hFront, String.utf8ByteSize_append] at hSize
    omega
  rw [hFront, String.utf8ByteSize_eq_zero_iff.mp hEmpty] at hLonger
  simp at hLonger

theorem Text.eq_of_length_eq {s front front' rest rest' : String} (h : s = front ++ rest)
    (h' : s = front' ++ rest') (hLength : front.length = front'.length) : front = front' := by
  have hText : front.toList ++ rest.toList = front'.toList ++ rest'.toList := by
    rw [← String.toList_append, ← String.toList_append, ← h, ← h']
  have hFronts := (List.append_inj hText (by simpa [String.length_toList] using hLength)).1
  exact String.toList_inj.mp hFronts

namespace Alias

theorem precedes_iff {a b : Alias} :
    a.precedes b = true ↔ b.front.utf8ByteSize < a.front.utf8ByteSize ∨
      a.front.utf8ByteSize = b.front.utf8ByteSize ∧ a.front ≤ b.front := by
  simp [precedes]

theorem precedes_trans (a b c : Alias) (hab : a.precedes b = true) (hbc : b.precedes c = true) :
    a.precedes c = true := by
  rw [precedes_iff] at hab hbc ⊢
  rcases hab with hab | ⟨hab, hLe⟩
  · omega
  · rcases hbc with hbc | ⟨hbc, hLe'⟩
    · omega
    · exact .inr ⟨hab.trans hbc, String.le_trans hLe hLe'⟩

theorem precedes_total (a b : Alias) : (a.precedes b || b.precedes a) = true := by
  rw [Bool.or_eq_true, precedes_iff, precedes_iff]
  rcases Nat.lt_trichotomy a.front.utf8ByteSize b.front.utf8ByteSize with hLess | hSame | hGreater
  · exact .inr (.inl hLess)
  · exact (String.le_total a.front b.front).imp (fun h => .inr ⟨hSame, h⟩) fun h =>
      .inr ⟨hSame.symm, h⟩
  · exact .inl (.inl hGreater)

theorem front_eq_of_precedes {a b : Alias} (hab : a.precedes b = true) (hba : b.precedes a = true) :
    a.front = b.front := by
  rw [precedes_iff] at hab hba
  rcases hab with hab | ⟨hab, hLe⟩
  · omega
  · rcases hba with hba | ⟨-, hGe⟩
    · omega
    · exact String.le_antisymm hLe hGe

theorem precedes_of_front_eq {a b : Alias} (h : a.front = b.front) : a.precedes b = true := by
  have hTotal := precedes_total a b
  rw [Bool.or_eq_true, precedes_iff, precedes_iff, h] at hTotal
  rw [precedes_iff, h]
  exact hTotal.elim id id

theorem rewrite?_eq_some_iff {a : Alias} {s text : String} :
    a.rewrite? s = some text ↔ ∃ rest, s = a.front ++ rest ∧ text = a.replacement ++ rest := by
  rw [rewrite?, Option.map_eq_some_iff]
  simp only [Text.after?_eq_some_iff, eq_comm (b := text)]

theorem rewrite?_eq_none_iff {a : Alias} {s : String} :
    a.rewrite? s = none ↔ Text.startsWith s a.front = false := by
  rw [rewrite?, Option.map_eq_none_iff, Text.startsWith]
  simp

end Alias

/-- The rewriting of a row that is due for a specifier: none with a longer beginning is in the row,
and none with the same beginning stands before it. -/
structure Chosen (registered : List Alias) (s : String) (a : Alias) : Prop where
  begins : Text.startsWith s a.front = true
  longest : ∀ b ∈ registered, Text.startsWith s b.front = true → b.front.length ≤ a.front.length
  first : registered.find? (·.front = a.front) = some a

namespace Chosen

variable {registered : List Alias} {s : String} {a b : Alias}

theorem unique (ha : Chosen registered s a) (hb : Chosen registered s b) : a = b := by
  obtain ⟨rest, hRest⟩ := Text.startsWith_iff.mp ha.begins
  obtain ⟨rest', hRest'⟩ := Text.startsWith_iff.mp hb.begins
  have haMem := List.mem_of_find?_eq_some ha.first
  have hbMem := List.mem_of_find?_eq_some hb.first
  have hFronts : a.front = b.front := by
    apply Text.eq_of_length_eq hRest hRest'
    exact Nat.le_antisymm (hb.longest a haMem ha.begins) (ha.longest b hbMem hb.begins)
  have hFirst := ha.first
  rw [hFronts, hb.first] at hFirst
  exact (Option.some.inj hFirst).symm

theorem of_distinct (hDistinct : (registered.map Alias.front).Nodup) (hMem : a ∈ registered)
    (hBegins : Text.startsWith s a.front = true)
    (hLongest : ∀ b ∈ registered, Text.startsWith s b.front = true →
      b.front.length ≤ a.front.length) : Chosen registered s a := by
  refine ⟨hBegins, hLongest, ?_⟩
  cases hFirst : registered.find? (·.front = a.front) with
  | none =>
    have hNone := List.find?_eq_none.mp hFirst a hMem
    simp at hNone
  | some b =>
    have hSame : b.front = a.front := by simpa using List.find?_some hFirst
    rw [List.inj_on_of_nodup_map hDistinct (List.mem_of_find?_eq_some hFirst) hMem hSame]

end Chosen

/-- What a table holds of the registered rewritings: all of them, sorted, with equal beginnings in
the order of their registration. -/
structure Tabulates (table registered : List Alias) : Prop where
  perm : table.Perm registered
  sorted : table.Pairwise fun a b => a.precedes b = true
  stable : ∀ front, table.filter (·.front = front) = registered.filter (·.front = front)

namespace Tabulates

variable {table registered : List Alias} (h : Tabulates table registered)

theorem nil : Tabulates [] [] := ⟨.nil, .nil, fun _ => rfl⟩

include h

theorem register (added : List Alias) :
    Tabulates ((table ++ added).mergeSort Alias.precedes) (registered ++ added) where
  perm := (List.mergeSort_perm _ _).trans (h.perm.append_right added)
  sorted := List.pairwise_mergeSort Alias.precedes_trans Alias.precedes_total _
  stable front := by
    rw [List.filter_append, ← h.stable front, ← List.filter_append]
    -- Equal beginnings are a sorted part of the row, which a stable sort keeps.
    have hPart : ((table ++ added).filter (·.front = front)).Pairwise
        fun a b => a.precedes b = true := by
      rw [List.pairwise_iff_forall_sublist]
      intro a b hPair
      have ha := hPair.subset (.head _)
      have hb := hPair.subset (.tail _ (.head _))
      rw [List.mem_filter, decide_eq_true_eq] at ha hb
      exact Alias.precedes_of_front_eq (ha.2.trans hb.2.symm)
    have hKept := List.sublist_mergeSort Alias.precedes_trans Alias.precedes_total
      hPart List.filter_sublist
    have hFiltered := hKept.filter (·.front = front)
    simp only [List.filter_filter, Bool.and_self] at hFiltered
    symm
    apply hFiltered.eq_of_length
    exact ((List.mergeSort_perm _ _).filter _).length_eq.symm

theorem first_match {s text : String} (hFound : table.findSome? (·.rewrite? s) = some text) :
    ∃ a rest, Chosen registered s a ∧ s = a.front ++ rest ∧ text = a.replacement ++ rest := by
  obtain ⟨before, a, after, hTable, hMatch, hBefore⟩ := List.findSome?_eq_some_iff.mp hFound
  obtain ⟨rest, hRest, hText⟩ := Alias.rewrite?_eq_some_iff.mp hMatch
  have hBegins : Text.startsWith s a.front = true := Text.startsWith_iff.mpr ⟨rest, hRest⟩
  refine ⟨a, rest, ⟨hBegins, fun b hb hbBegins => ?_, ?_⟩, hRest, hText⟩
  · have hbTable := h.perm.mem_iff.mpr hb
    rw [hTable, List.mem_append, List.mem_cons] at hbTable
    rcases hbTable with hbBefore | rfl | hbAfter
    · rw [Alias.rewrite?_eq_none_iff.mp (hBefore b hbBefore)] at hbBegins
      cases hbBegins
    · exact Nat.le_refl _
    · have hSorted := h.sorted
      rw [hTable, List.pairwise_append, List.pairwise_cons] at hSorted
      have hPrecedes := Alias.precedes_iff.mp (hSorted.2.1.1 b hbAfter)
      obtain ⟨rest', hRest'⟩ := Text.startsWith_iff.mp hbBegins
      apply Text.length_le_of_size_le hRest' hRest
      omega
  · have hNone : before.find? (·.front = a.front) = none := by
      rw [List.find?_eq_none]
      intro b hb hSame
      have hNot := Alias.rewrite?_eq_none_iff.mp (hBefore b hb)
      rw [of_decide_eq_true hSame, hBegins] at hNot
      cases hNot
    rw [← List.head?_filter, ← h.stable, List.head?_filter, hTable, List.find?_append, hNone]
    simp

theorem findSome?_of_chosen {s rest : String} {a : Alias} (ha : Chosen registered s a)
    (hRest : s = a.front ++ rest) :
    table.findSome? (·.rewrite? s) = some (a.replacement ++ rest) := by
  cases hFound : table.findSome? (·.rewrite? s) with
  | none =>
    have hMem := h.perm.mem_iff.mpr (List.mem_of_find?_eq_some ha.first)
    have hNone := List.findSome?_eq_none_iff.mp hFound a hMem
    rw [Alias.rewrite?_eq_none_iff, ha.begins] at hNone
    cases hNone
  | some text =>
    obtain ⟨b, rest', hb, hRest', rfl⟩ := h.first_match hFound
    obtain rfl := ha.unique hb
    rw [hRest', String.append_right_inj] at hRest
    rw [hRest]

theorem findSome?_eq_none_iff {s : String} :
    table.findSome? (·.rewrite? s) = none ↔
      ∀ a ∈ registered, Text.startsWith s a.front = false := by
  simp only [List.findSome?_eq_none_iff, Alias.rewrite?_eq_none_iff, h.perm.mem_iff]

/-- With distinct beginnings the order of registration does not show. -/
theorem eq_of_perm {table' registered' : List Alias} (h' : Tabulates table' registered')
    (hPerm : registered.Perm registered') (hDistinct : (registered.map Alias.front).Nodup) :
    table = table' := by
  apply List.Perm.eq_of_pairwise _ h.sorted h'.sorted
    (h.perm.trans (hPerm.trans h'.perm.symm))
  intro a b ha hb hab hba
  have haMem := h.perm.mem_iff.mp ha
  have hbMem := hPerm.mem_iff.mpr (h'.perm.mem_iff.mp hb)
  exact List.inj_on_of_nodup_map hDistinct haMem hbMem (Alias.front_eq_of_precedes hab hba)

end Tabulates

end ModuleAtlas
