import Mathlib.Data.List.Basic
import Mathlib.Data.List.TakeDrop
import Mathlib.Data.List.TakeWhile
import ModuleAtlas.Text

/-!
# What cutting text leaves

A text is cut at its front or back exactly if it is that piece put together with the rest. A first
part made of one kind of characters is told apart from what follows it if that starts otherwise.
-/

namespace ModuleAtlas.Text

theorem append_inj_of_all {α : Type} (p : α → Bool) {xs ys rest rest' : List α}
    (hxs : ∀ a ∈ xs, p a) (hys : ∀ a ∈ ys, p a) (hRest : ∀ a ∈ rest.head?, ¬ p a)
    (hRest' : ∀ a ∈ rest'.head?, ¬ p a) (hSame : xs ++ rest = ys ++ rest') :
    xs = ys ∧ rest = rest' := by
  have hStop : ∀ {tail : List α}, (∀ a ∈ tail.head?, ¬ p a) → tail.takeWhile p = [] := by
    intro tail hTail
    cases tail with
    | nil => rfl
    | cons a tail => rw [List.takeWhile_cons_of_neg (hTail a rfl)]
  have hFront := congrArg (List.takeWhile p) hSame
  rw [List.takeWhile_append_of_pos hxs, List.takeWhile_append_of_pos hys, hStop hRest,
    hStop hRest', List.append_nil, List.append_nil] at hFront
  subst hFront
  exact ⟨rfl, List.append_cancel_left hSame⟩

theorem chopFront?_eq_some_iff {front text rest : List Char} :
    chopFront? front text = some rest ↔ text = front ++ rest := by
  induction front generalizing text with
  | nil => simp [chopFront?, eq_comm]
  | cons c front ih =>
    cases text with
    | nil => simp [chopFront?]
    | cons d text =>
      rw [chopFront?]
      split
      · rename_i hSame
        rw [ih, hSame, List.cons_append, List.cons.injEq]
        simp
      · rename_i hDiffer
        simp [Ne.symm hDiffer]

theorem chopBack?_eq_some_iff {back text rest : List Char} :
    chopBack? back text = some rest ↔ text = rest ++ back := by
  rw [chopBack?, Option.map_eq_some_iff]
  constructor
  · rintro ⟨turned, hChop, rfl⟩
    have hText := congrArg List.reverse (chopFront?_eq_some_iff.mp hChop)
    simpa using hText
  · rintro rfl
    refine ⟨rest.reverse, ?_, List.reverse_reverse rest⟩
    rw [chopFront?_eq_some_iff, List.reverse_append]

theorem after?_eq_some_iff {front text rest : String} :
    after? front text = some rest ↔ text = front ++ rest := by
  rw [after?, Option.map_eq_some_iff]
  constructor
  · rintro ⟨kept, hChop, rfl⟩
    have hText := chopFront?_eq_some_iff.mp hChop
    rw [← String.toList_inj, hText, String.toList_append, String.toList_ofList]
  · rintro rfl
    refine ⟨rest.toList, ?_, String.ofList_toList⟩
    rw [chopFront?_eq_some_iff, String.toList_append]

theorem before?_eq_some_iff {back text rest : String} :
    before? back text = some rest ↔ text = rest ++ back := by
  rw [before?, Option.map_eq_some_iff]
  constructor
  · rintro ⟨kept, hChop, rfl⟩
    have hText := chopBack?_eq_some_iff.mp hChop
    rw [← String.toList_inj, hText, String.toList_append, String.toList_ofList]
  · rintro rfl
    refine ⟨rest.toList, ?_, String.ofList_toList⟩
    rw [chopBack?_eq_some_iff, String.toList_append]

theorem endsWith_iff {text back : String} :
    endsWith text back = true ↔ ∃ rest, text = rest ++ back := by
  rw [endsWith, Option.isSome_iff_exists]
  simp only [before?_eq_some_iff]

theorem startsWith_iff {text front : String} :
    startsWith text front = true ↔ ∃ rest, text = front ++ rest := by
  rw [startsWith, Option.isSome_iff_exists]
  simp only [after?_eq_some_iff]

theorem splitLast?_append {c : Char} {after : List Char} (h : c ∉ after) (before : List Char) :
    splitLast? c (before ++ c :: after) = some (before, after) := by
  have hAfter : ∀ d ∈ after.reverse, (d != c) = true := by
    intro d hd
    rw [List.mem_reverse] at hd
    simpa using ne_of_mem_of_not_mem hd h
  rw [splitLast?, List.span_eq_takeWhile_dropWhile, List.reverse_append, List.reverse_cons,
    List.append_assoc, List.singleton_append, List.takeWhile_append_of_pos hAfter,
    List.dropWhile_append_of_pos hAfter]
  simp

theorem splitLast?_of_not_mem {c : Char} {text : List Char} (h : c ∉ text) :
    splitLast? c text = none := by
  have hAll : ∀ d ∈ text.reverse, (d != c) = true := by
    intro d hd
    rw [List.mem_reverse] at hd
    simpa using ne_of_mem_of_not_mem hd h
  rw [splitLast?, List.span_eq_takeWhile_dropWhile, List.dropWhile_eq_nil_iff.mpr hAll]

theorem exists_last_of_mem {c : Char} {text : List Char} (h : c ∈ text) :
    ∃ before after, text = before ++ c :: after ∧ c ∉ after := by
  obtain ⟨turned, rest, hTurned, hFree⟩ := List.eq_append_cons_of_mem (List.mem_reverse.mpr h)
  refine ⟨rest.reverse, turned.reverse, ?_, by simpa using hFree⟩
  have hText := congrArg List.reverse hTurned
  simpa using hText

theorem isAlphanum_cases {c : Char} (h : c.isAlphanum = true) :
    (65 ≤ c.toNat ∧ c.toNat ≤ 90) ∨ (97 ≤ c.toNat ∧ c.toNat ≤ 122) ∨
      (48 ≤ c.toNat ∧ c.toNat ≤ 57) := by
  delta Char.isAlphanum Char.isAlpha Char.isUpper Char.isLower Char.isDigit at h
  simp only [Bool.or_eq_true, Bool.and_eq_true, decide_eq_true_eq, UInt32.le_iff_toNat_le,
    ge_iff_le] at h
  exact or_assoc.mp h

end ModuleAtlas.Text
