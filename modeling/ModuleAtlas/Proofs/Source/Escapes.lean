import Mathlib.Algebra.Order.BigOperators.Group.List
import Mathlib.Tactic.IntervalCases
import ModuleAtlas.Source.Literal

/-!
# What literals mean

A literal means its fragments as they stand, its numeric escapes as they are written, and for every
other escape what the language gives it. That is what it is read as unless one of its escapes is
misread: no two misread escapes make up for each other.
-/

namespace ModuleAtlas.Source

namespace Escape

/-- The texts behind a backslash that make an escape. -/
inductive IsEscape : List Char → Prop where
  | character {c : Char} (hHex : c ≠ 'x') (hUnicode : c ≠ 'u') : IsEscape [c]
  | octal {d e : Char} (hd : isOctal d = true) (he : isOctal e = true) : IsEscape [d, e]
  | longOctal {d e f : Char} (hd : isOctal d = true) (he : isOctal e = true)
      (hf : isOctal f = true) : IsEscape [d, e, f]
  | hex {a b : Char} (ha : isHex a = true) (hb : isHex b = true) : IsEscape ['x', a, b]
  | unicode {a b c d : Char} (ha : isHex a = true) (hb : isHex b = true) (hc : isHex c = true)
      (hd : isHex d = true) : IsEscape ['u', a, b, c, d]
  | codePoint {digits : List Char} (hDigits : ∀ d ∈ digits, isHex d = true) (hSome : digits ≠ []) :
      IsEscape ('u' :: '\x7b' :: (digits ++ ['\x7d']))
  /-- A carriage return or a question mark takes in the line end behind it. -/
  | lineEnd {c e : Char} (hc : c = '\r' ∨ c = '?') (he : isLineEnd e = true) : IsEscape [c, e]

def isLineTerminator (c : Char) : Bool := isLineEnd c || c == '\r'

/-- What a backslash before a single character means; a line break is left out. -/
def meaningOne : Char → List Char
  | 'n' => ['\n']
  | 't' => ['\t']
  | 'r' => ['\r']
  | 'b' => ['\x08']
  | 'f' => ['\x0c']
  | 'v' => ['\x0b']
  | '0' => ['\x00']
  | c => if isLineTerminator c then [] else if isOctal c then ['\\', c] else [c]

/-- What an escape means. A line break may be of two characters, and a line end that was taken in by
the character before it stands for itself. -/
def meaning : List Char → List Char
  | [c] => meaningOne c
  | [c, e] =>
    if c == '\r' && e == '\n' then []
    else if (c == '\r' || c == '?') && isLineEnd e then meaningOne c ++ [e]
    else ['\\', c, e]
  | text => '\\' :: text

/-- The control characters that are written with a letter other than `n`, `t` and `r`. -/
def isLettered (c : Char) : Bool := c == '\x08' || c == '\x0c' || c == '\x0b'

def misreadOnes : List Char :=
  ['b', 'f', 'v', '\n', '\r', '\u2028', '\u2029', '1', '2', '3', '4', '5', '6', '7']

/-- The escapes that are not read as what they mean. -/
def misread : List (List Char) :=
  misreadOnes.map ([·]) ++ ['\r', '?'].flatMap fun c => ['\n', '\u2028', '\u2029'].map ([c, ·])

theorem isOctal_cases {c : Char} (h : isOctal c = true) :
    c ∈ ['0', '1', '2', '3', '4', '5', '6', '7'] := by
  simp only [isOctal, Bool.and_eq_true, decide_eq_true_eq] at h
  obtain ⟨hLow, hHigh⟩ := h
  have hLow : 48 ≤ c.toNat := hLow
  have hHigh : c.toNat ≤ 55 := hHigh
  rw [← Char.ofNat_toNat c]
  interval_cases c.toNat <;> decide

theorem isLineEnd_iff {c : Char} : isLineEnd c = true ↔ c = '\n' ∨ c = '\u2028' ∨ c = '\u2029' := by
  simp [isLineEnd, or_assoc]

theorem isLineTerminator_iff {c : Char} :
    isLineTerminator c = true ↔ c = '\n' ∨ c = '\u2028' ∨ c = '\u2029' ∨ c = '\r' := by
  simp [isLineTerminator, isLineEnd, or_assoc]

theorem value_long (c d : Char) (rest : List Char) :
    value (c :: d :: rest) = '\\' :: c :: d :: rest := by
  rw [value] <;> simp

theorem value_one {c : Char} (h : c ∉ ['n', 't', 'r', '0']) : value [c] = [c] := by
  rw [value] <;> simp_all

theorem meaningOne_same {c : Char} (h : c ∉ ['n', 't', 'r', '0']) (hRead : c ∉ misreadOnes) :
    meaningOne c = [c] := by
  have hLine : ¬ isLineTerminator c = true := by
    intro hLine
    rcases isLineTerminator_iff.mp hLine with rfl | rfl | rfl | rfl <;> exact hRead (by decide)
  have hOctal : ¬ isOctal c = true := by
    intro hOctal
    rcases List.mem_cons.mp (isOctal_cases hOctal) with rfl | hDigit
    · exact h (by decide)
    · exact hRead (List.mem_append_right ['b', 'f', 'v', '\n', '\r', '\u2028', '\u2029'] hDigit)
  have hLetter : c ∉ ['b', 'f', 'v'] := fun hLetter => hRead (List.mem_append_left _ hLetter)
  rw [meaningOne, if_neg hLine, if_neg hOctal] <;> simp_all

theorem value_eq_meaningOne {c : Char} (hRead : c ∉ misreadOnes) : value [c] = meaningOne c := by
  by_cases hDecoded : c ∈ ['n', 't', 'r', '0']
  · simp only [List.mem_cons, List.not_mem_nil, or_false] at hDecoded
    rcases hDecoded with rfl | rfl | rfl | rfl <;> rfl
  · rw [value_one hDecoded, meaningOne_same hDecoded hRead]

theorem ne_of_isOctal {d : Char} (hd : isOctal d = true) {c : Char} (hc : isOctal c = false) :
    d ≠ c := by
  rintro rfl
  exact Bool.false_ne_true (hc.symm.trans hd)

theorem meaning_octal {d e : Char} (hd : isOctal d = true) : meaning [d, e] = ['\\', d, e] := by
  have hReturn : d ≠ '\r' := ne_of_isOctal hd (by decide)
  have hQuestion : d ≠ '?' := ne_of_isOctal hd (by decide)
  simp [meaning, hReturn, hQuestion]

theorem IsEscape.value_eq_meaning {text : List Char} (h : IsEscape text) (hRead : text ∉ misread) :
    value text = meaning text := by
  cases h with
  | @character c _ _ =>
    apply value_eq_meaningOne
    intro hMisread
    exact hRead (List.mem_append_left _ (List.mem_map_of_mem hMisread))
  | octal hd _ => rw [value_long, meaning_octal hd]
  | longOctal _ _ _ | hex _ _ | unicode _ _ _ _ => exact value_long ..
  | @codePoint digits _ hSome =>
    obtain ⟨d, digits, rfl⟩ := List.exists_cons_of_ne_nil hSome
    exact value_long ..
  | lineEnd hc he =>
    rcases hc with rfl | rfl <;> rcases isLineEnd_iff.mp he with rfl | rfl | rfl <;>
      exact absurd (by decide) hRead

/-! ## Misread escapes -/

theorem countP_isLettered_le :
    ∀ text ∈ misread, (value text).countP isLettered ≤ (meaning text).countP isLettered := by
  decide

theorem countP_isLineTerminator_le :
    ∀ text ∈ misread,
      (meaning text).countP isLineTerminator ≤ (value text).countP isLineTerminator := by
  decide

/-- A misread escape that changes no count shows at its first character. -/
theorem first_of_misread :
    ∀ text ∈ misread, (value text).countP isLettered = (meaning text).countP isLettered →
      (meaning text).countP isLineTerminator = (value text).countP isLineTerminator →
        value text ≠ [] ∧ meaning text ≠ [] ∧ (value text).head? ≠ (meaning text).head? := by
  decide

theorem value_ne_meaning : ∀ text ∈ misread, value text ≠ meaning text := by
  decide

end Escape

/-! ## Rows of pieces -/

section Rows

variable {α β : Type} {f g : α → List β} {l : List α}

theorem countP_eq_of_flatMap {p : β → Bool} (hLe : ∀ a ∈ l, (f a).countP p ≤ (g a).countP p)
    (hAll : (l.flatMap f).countP p = (l.flatMap g).countP p) :
    ∀ a ∈ l, (f a).countP p = (g a).countP p := by
  induction l with
  | nil => nofun
  | cons a l ih =>
    rw [List.forall_mem_cons] at hLe
    rw [List.flatMap_cons, List.flatMap_cons, List.countP_append, List.countP_append] at hAll
    have hRest : (l.flatMap f).countP p ≤ (l.flatMap g).countP p := by
      rw [List.countP_flatMap, List.countP_flatMap]
      exact List.sum_le_sum hLe.2
    rw [List.forall_mem_cons]
    exact ⟨by omega, ih hLe.2 (by omega)⟩

theorem eq_of_flatMap_eq
    (hFirst : ∀ a ∈ l, f a = g a ∨ f a ≠ [] ∧ g a ≠ [] ∧ (f a).head? ≠ (g a).head?)
    (hAll : l.flatMap f = l.flatMap g) : ∀ a ∈ l, f a = g a := by
  induction l with
  | nil => nofun
  | cons a l ih =>
    rw [List.forall_mem_cons] at hFirst
    rw [List.flatMap_cons, List.flatMap_cons] at hAll
    rcases hFirst.1 with hSame | ⟨hf, hg, hApart⟩
    · rw [hSame, List.append_cancel_left_eq] at hAll
      exact List.forall_mem_cons.mpr ⟨hSame, ih hFirst.2 hAll⟩
    · have hHead := congrArg List.head? hAll
      rw [List.head?_append_of_ne_nil _ hf, List.head?_append_of_ne_nil _ hg] at hHead
      exact absurd hHead hApart

end Rows

/-! ## Literals -/

def Piece.meaning : Piece → List Char
  | fragment text => text
  | escape text => Escape.meaning text

def Literal.meaning (l : Literal) : String := String.ofList (l.pieces.flatMap Piece.meaning)

open Escape

section Pieces

variable {pieces : List Piece} (hEscapes : ∀ text, Piece.escape text ∈ pieces → IsEscape text)
include hEscapes

theorem Piece.value_eq_or_misread {p : Piece} (hp : p ∈ pieces) :
    p.value = p.meaning ∨ ∃ text ∈ misread, p = .escape text := by
  cases p with
  | fragment text => exact .inl rfl
  | escape text =>
    by_cases hText : text ∈ misread
    · exact .inr ⟨text, hText, rfl⟩
    · exact .inl ((hEscapes text hp).value_eq_meaning hText)

theorem countP_isLettered_pieces (hAll : pieces.flatMap Piece.value = pieces.flatMap Piece.meaning) :
    ∀ p ∈ pieces, p.value.countP isLettered = p.meaning.countP isLettered := by
  refine countP_eq_of_flatMap (fun p hp => ?_) (congrArg _ hAll)
  rcases Piece.value_eq_or_misread hEscapes hp with hSame | ⟨text, hText, rfl⟩
  · rw [hSame]
  · exact countP_isLettered_le text hText

theorem countP_isLineTerminator_pieces
    (hAll : pieces.flatMap Piece.value = pieces.flatMap Piece.meaning) :
    ∀ p ∈ pieces, p.meaning.countP isLineTerminator = p.value.countP isLineTerminator := by
  refine countP_eq_of_flatMap (fun p hp => ?_) (congrArg _ hAll.symm)
  rcases Piece.value_eq_or_misread hEscapes hp with hSame | ⟨text, hText, rfl⟩
  · rw [hSame]
  · exact countP_isLineTerminator_le text hText

/-- Lettered control characters can only get lost and line terminators only come in, so neither
happens where the rows are equal. What is left shows where it first happens. -/
theorem flatMap_value_eq_iff :
    pieces.flatMap Piece.value = pieces.flatMap Piece.meaning ↔
      ∀ text ∈ misread, Piece.escape text ∉ pieces := by
  constructor
  · intro hAll text hText hPiece
    have hLettered := countP_isLettered_pieces hEscapes hAll
    have hLine := countP_isLineTerminator_pieces hEscapes hAll
    refine value_ne_meaning text hText (eq_of_flatMap_eq (fun p hp => ?_) hAll _ hPiece)
    rcases Piece.value_eq_or_misread hEscapes hp with hSame | ⟨e, he, rfl⟩
    · exact .inl hSame
    · exact .inr (first_of_misread e he (hLettered _ hp) (hLine _ hp))
  · intro hNone
    refine List.flatMap_congr fun p hp => ?_
    rcases Piece.value_eq_or_misread hEscapes hp with hSame | ⟨text, hText, rfl⟩
    · exact hSame
    · exact absurd hp (hNone text hText)

end Pieces

theorem Literal.value_eq_meaning_iff {l : Literal}
    (hEscapes : ∀ text, Piece.escape text ∈ l.pieces → IsEscape text) :
    l.value = l.meaning ↔ ∀ text ∈ misread, Piece.escape text ∉ l.pieces := by
  rw [value, meaning, String.ofList_inj]
  exact flatMap_value_eq_iff hEscapes

end ModuleAtlas.Source
