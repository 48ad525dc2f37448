import Mathlib.Data.List.Basic
import ModuleAtlas.Proofs.Text.Bytes
import ModuleAtlas.Text

/-!
# Names as they are shown

A name that is text is shown as it is. Any other name shows a replacement character, so it is never
taken for a name that has a meaning. Slashes separate the same parts in every form of a name.
-/

namespace ModuleAtlas.Text

theorem signs_append_slash (front rest : List Char) :
    signs (front ++ '/' :: rest) = signs front ++ .char '/' :: signs rest := by
  have hSlash : signs ('/' :: rest) = .char '/' :: signs rest := by
    cases rest with
    | nil => rfl
    | cons d rest => rw [signs, if_neg fun hStray => absurd hStray.1 (by decide)]
  fun_induction signs front with
  | case1 c d front hStray ih =>
    rw [List.cons_append, List.cons_append, signs, if_pos hStray, ih, List.cons_append]
  | case2 c d front hChar ih =>
    rw [List.cons_append, List.cons_append] at *
    rw [signs, if_neg hChar, ih, List.cons_append]
  | case3 front hShort =>
    cases front with
    | nil => exact hSlash
    | cons c front =>
      cases front with
      | nil =>
        rw [List.singleton_append, signs, if_neg fun hStray => absurd hStray.2.1 (by decide), hSlash]
        rfl
      | cons d front => exact (hShort c d front rfl).elim

theorem mem_of_char_mem_signs {c : Char} {name : List Char} (h : .char c ∈ signs name) :
    c ∈ name := by
  fun_induction signs name with
  | case1 => grind
  | case2 => grind
  | case3 => simpa using h

theorem le_of_stray_mem_signs {b : UInt8} {name : List Char} (h : .stray b ∈ signs name) :
    0x80 ≤ b := by
  fun_induction signs name with
  | case1 c d name hStray ih =>
    rcases List.mem_cons.mp h with hHere | hLater
    · obtain ⟨-, hLow, hHigh⟩ := hStray
      cases hHere
      rw [UInt8.le_iff_toNat_le, UInt8.toNat_ofNat_of_lt' (Nat.lt_succ_of_le hHigh)]
      exact hLow
    · exact ih hLater
  | case2 c d name hChar ih => exact ih (by simpa using h)
  | case3 => simp at h

theorem encode_append_slash (front rest : List Char) :
    encode (front ++ '/' :: rest) = encode front ++ 47 :: encode rest := by
  rw [encode, signs_append_slash, List.flatMap_append, List.flatMap_cons]
  rfl

/-- A stray byte is written as two characters. -/
theorem length_signs (name : List Char) :
    (signs name).length + (signs name).countP (! ·.isChar) = name.length := by
  fun_induction signs name with
  | case1 c d name hStray ih =>
    have hStep := List.countP_cons_of_pos (p := (! ·.isChar)) (a := .stray d.toNat.toUInt8)
      (l := signs name) rfl
    rw [hStep, List.length_cons, List.length_cons, List.length_cons]
    omega
  | case2 c d name hChar ih =>
    rw [List.countP_cons_of_neg (by simp [Sign.isChar]), List.length_cons, List.length_cons]
    omega
  | case3 => simp [Sign.isChar, List.countP_map, Function.comp_def]

theorem signs_eq_map (name : List Char) (h : (signs name).all Sign.isChar = true) :
    signs name = name.map .char := by
  fun_induction signs name with
  | case1 => simp [Sign.isChar] at h
  | case2 c d name hChar ih =>
    rw [List.all_cons, Bool.and_eq_true] at h
    rw [ih h.2, List.map_cons, List.map_cons, List.map_cons]
  | case3 => rfl

theorem encode_of_isText {name : String} (h : isText name = true) :
    encode name.toList = bytes name := by
  rw [encode, signs_eq_map _ h, List.flatMap_map, bytes_eq]
  rfl

/-! ## What is shown -/

theorem replaceStrays_map_char (inner : List (UInt8 × UInt8)) (text : List Char) :
    replaceStrays inner (text.map .char) = text := by
  induction text generalizing inner with
  | nil => rw [List.map_nil, replaceStrays]
  | cons c text ih => rw [List.map_cons, replaceStrays, ih]

theorem mem_replaceStrays {c : Char} {inner : List (UInt8 × UInt8)} {name : List Sign}
    (h : c ∈ replaceStrays inner name) : c = '\uFFFD' ∨ .char c ∈ name := by
  fun_induction replaceStrays inner name with
  | case1 => cases h
  | case2 => grind
  | case3 => grind
  | case4 => grind
  | case5 => grind

/-- The first of the stray bytes that follow a character is replaced. -/
theorem replacement_mem_replaceStrays {b : UInt8} {name : List Sign} (h : .stray b ∈ name) :
    '\uFFFD' ∈ replaceStrays [] name := by
  induction name with
  | nil => cases h
  | cons sign name ih =>
    cases sign with
    | char c =>
      rw [replaceStrays]
      exact List.mem_cons_of_mem _ (ih (by simpa using h))
    | stray b =>
      rw [replaceStrays]
      exact List.mem_cons_self

theorem length_replaceStrays_le (inner : List (UInt8 × UInt8)) (name : List Sign) :
    (replaceStrays inner name).length ≤ name.length := by
  fun_induction replaceStrays inner name with
  | case1 => exact Nat.le_refl _
  | case2 _ c name ih => exact Nat.succ_le_succ ih
  | case3 b name ih => exact Nat.succ_le_succ ih
  | case4 low high inner b name hInner ih => exact Nat.le_succ_of_le ih
  | case5 low high inner b name hOuter ih => exact Nat.succ_le_succ ih

variable {name : String}

theorem lossy_of_isText (h : isText name = true) : lossy name = name := by
  rw [lossy, signs_eq_map _ h, replaceStrays_map_char, String.ofList_toList]

/-- What is shown of a name that is not text is shorter than the name. -/
theorem lossy_eq_self_iff : lossy name = name ↔ isText name = true := by
  constructor
  · intro hSame
    have hShorter := length_replaceStrays_le [] (signs name.toList)
    have hLength := length_signs name.toList
    rw [← String.toList_inj, lossy, String.toList_ofList] at hSame
    rw [hSame] at hShorter
    have hNone : (signs name.toList).countP (! ·.isChar) = 0 := by omega
    rw [List.countP_eq_zero] at hNone
    simpa [isText] using hNone
  · exact lossy_of_isText

theorem map_lossy_eq_self_iff {names : List String} :
    names.map lossy = names ↔ ∀ name ∈ names, isText name = true := by
  induction names with
  | nil => simp
  | cons name names ih =>
    rw [List.map_cons, List.cons.injEq, lossy_eq_self_iff, ih, List.forall_mem_cons]

theorem replacement_mem_lossy (h : ¬ isText name = true) : '\uFFFD' ∈ (lossy name).toList := by
  rw [isText, List.all_eq_true] at h
  push Not at h
  obtain ⟨sign, hSign, hStray⟩ := h
  rw [lossy, String.toList_ofList]
  cases sign with
  | char => exact (hStray rfl).elim
  | stray b => exact replacement_mem_replaceStrays hSign

theorem slash_free_lossy (h : '/' ∉ name.toList) : '/' ∉ (lossy name).toList := by
  rw [lossy, String.toList_ofList]
  intro hSlash
  rcases mem_replaceStrays hSlash with hOther | hChar
  · exact absurd hOther (by decide)
  · exact h (mem_of_char_mem_signs hChar)

/-- Only a name itself is shown as that name, unless it holds a replacement character. -/
theorem lossy_eq_iff {text : String} (hText : isText text = true)
    (hKept : '\uFFFD' ∉ text.toList) : lossy name = text ↔ name = text := by
  constructor
  · intro hShown
    by_cases hName : isText name = true
    · rwa [lossy_of_isText hName] at hShown
    · exact (hKept (hShown ▸ replacement_mem_lossy hName)).elim
  · rintro rfl
    exact lossy_of_isText hText

end ModuleAtlas.Text
