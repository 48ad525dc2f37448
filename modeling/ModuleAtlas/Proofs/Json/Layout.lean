import Mathlib.Data.List.Chain
import ModuleAtlas.Json.Comments
import ModuleAtlas.Proofs.Json.Lexeme

/-!
# Layouts of JSON

A layout puts lexemes into a text with blanks and comments between them. Without comments, the text
is another layout: what stood between the lexemes is blank, and a comma is gone if a closing bracket
is next. Of the tokens nothing else is lost, because strings are copied as they are spelled.
-/

namespace ModuleAtlas.Json

/-- What can stand between two lexemes. -/
inductive Filler where
  | blank (c : Char) (h : Token.isBlank c = true)
  /-- A comment that the end of its line ends. -/
  | line (text : List Char) (h : '\n' ∉ text)
  | block (text : List Char) (h : text.IsChain fun a b => ¬ (a = '*' ∧ b = '/'))

namespace Filler

def text : Filler → List Char
  | blank c _ => [c]
  | line text _ => '/' :: '/' :: (text ++ ['\n'])
  | block text _ => '/' :: '*' :: (text ++ ['*', '/'])

/-- What is left of it without comments. -/
def residue : Filler → List Filler
  | blank c h => [blank c h]
  | line _ _ => [blank '\n' rfl]
  | block _ _ => []

end Filler

abbrev Gap := List Filler

namespace Gap

def text (gap : Gap) : List Char := gap.flatMap Filler.text

def residue (gap : Gap) : Gap := gap.flatMap Filler.residue

def Plain (gap : Gap) : Prop := ∀ f ∈ gap, ∃ c h, f = .blank c h

end Gap

def Lexeme.isClosing : Lexeme → Bool
  | closeArray | closeObject => true
  | _ => false

/-- Lexemes without the commas that a closing bracket follows. -/
def tidy : List Lexeme → List Lexeme
  | .comma :: l :: rest => if l.isClosing then l :: tidy rest else .comma :: tidy (l :: rest)
  | l :: rest => l :: tidy rest
  | [] => []

structure Layout where
  /-- Each lexeme with what stands in front of it. -/
  items : List (Gap × Lexeme)
  last : Gap
  /-- A comment that only the end of the text ends. -/
  open? : Option {text : List Char // '\n' ∉ text}

namespace Layout

def itemsText (items : List (Gap × Lexeme)) : List Char :=
  items.flatMap fun item => item.1.text ++ item.2.text

def tailText (a : Layout) : List Char :=
  a.last.text ++ (a.open?.map fun comment => '/' :: '/' :: comment.1).getD []

def text (a : Layout) : List Char := itemsText a.items ++ a.tailText

def lexemes (a : Layout) : List Lexeme := a.items.map Prod.snd

/-- Whether there is nothing but blanks between the lexemes. -/
structure Plain (a : Layout) : Prop where
  items : ∀ item ∈ a.items, item.1.Plain
  last : a.last.Plain
  closed : a.open? = none

def tidyItems : List (Gap × Lexeme) → List (Gap × Lexeme)
  | (gap, .comma) :: (gap', l) :: rest =>
    if l.isClosing then (gap.residue, l) :: tidyItems rest
    else (gap.residue, .comma) :: tidyItems ((gap', l) :: rest)
  | (gap, l) :: rest => (gap.residue, l) :: tidyItems rest
  | [] => []

def tidied (a : Layout) : Layout := ⟨tidyItems a.items, a.last.residue, none⟩

end Layout

/-! ## Copying -/

namespace Comments

theorem blank_of_isBlank {c : Char} (h : Token.isBlank c = true) : Text.isBlank c = true := by
  simp only [Token.isBlank, Bool.or_eq_true, beq_iff_eq] at h
  rcases h with ((rfl | rfl) | rfl) | rfl <;> decide

theorem copy_nil (place : Place) (out : List Char) : copy place out [] = out.reverse := by
  cases place <;> rfl

theorem copy_openLine (out rest : List Char) :
    copy .code out ('/' :: '/' :: rest) = copy .lineComment out rest := rfl

theorem copy_openBlock (out rest : List Char) :
    copy .code out ('/' :: '*' :: rest) = copy (.blockComment false) out rest := rfl

theorem copy_quote (out rest : List Char) :
    copy .code out ('"' :: rest) = copy .string ('"' :: out) rest := rfl

/-- Characters that mean nothing to the copying of code. -/
def Inert (c : Char) : Prop := c ≠ '/' ∧ c ≠ '"' ∧ c ≠ ']' ∧ c ≠ '\x7d'

instance (c : Char) : Decidable (Inert c) :=
  inferInstanceAs (Decidable (c ≠ '/' ∧ c ≠ '"' ∧ c ≠ ']' ∧ c ≠ '\x7d'))

theorem inert_of_isBlank {c : Char} (h : Token.isBlank c = true) : Inert c := by
  simp only [Token.isBlank, Bool.or_eq_true, beq_iff_eq] at h
  rcases h with ((rfl | rfl) | rfl) | rfl <;> decide

theorem copy_inert {c : Char} (h : Inert c) (out rest : List Char) :
    copy .code out (c :: rest) = copy .code (c :: out) rest := by
  obtain ⟨hSlash, hQuote, hArray, hObject⟩ := h
  rw [copy]
  · rw [if_neg hQuote, if_neg (by simp [hArray, hObject])]
  · exact fun _ hc => (hSlash hc).elim
  · exact fun _ hc => (hSlash hc).elim

theorem copy_inerts {text : List Char} (h : ∀ c ∈ text, Inert c) (out rest : List Char) :
    copy .code out (text ++ rest) = copy .code (text.reverse ++ out) rest := by
  induction text generalizing out with
  | nil => rfl
  | cons c text ih =>
    rw [List.forall_mem_cons] at h
    rw [List.cons_append, copy_inert h.1, ih h.2, List.reverse_cons, List.append_assoc]
    rfl

theorem copy_closing {c : Char} (h : c = ']' ∨ c = '\x7d') (out rest : List Char) :
    copy .code out (c :: rest) = copy .code (c :: dropComma out) rest := by
  rcases h with rfl | rfl <;> rfl

theorem copy_line {text : List Char} (h : '\n' ∉ text) (out rest : List Char) :
    copy .lineComment out (text ++ rest) = copy .lineComment out rest := by
  induction text with
  | nil => rfl
  | cons c text ih =>
    rw [List.mem_cons, not_or] at h
    rw [List.cons_append, copy, if_neg (Ne.symm h.1), ih h.2]

theorem copy_block {text : List Char} (h : text.IsChain fun a b => ¬ (a = '*' ∧ b = '/'))
    {afterStar : Bool} (hFirst : afterStar = true → text.head? ≠ some '/') (out rest : List Char) :
    copy (.blockComment afterStar) out (text ++ '*' :: '/' :: rest) = copy .code out rest := by
  induction text generalizing afterStar with
  | nil =>
    have hStar : ¬ (afterStar = true ∧ '*' = '/') := fun hBoth => absurd hBoth.2 (by decide)
    rw [List.nil_append, copy, if_neg hStar, copy, if_pos (by decide)]
  | cons c text ih =>
    have hStep : ¬ (afterStar = true ∧ c = '/') := by
      rintro ⟨hStar, rfl⟩
      exact hFirst hStar rfl
    rw [List.cons_append, copy, if_neg hStep]
    apply ih h.tail
    intro hStar hHead
    obtain ⟨text, rfl⟩ := List.head?_eq_some_iff.mp hHead
    exact (List.isChain_cons_cons.mp h).1 ⟨of_decide_eq_true hStar, rfl⟩

theorem copy_string (pieces : List Piece) (out rest : List Char) :
    copy .string out (pieces.flatMap Piece.text ++ '"' :: rest) =
      copy .code ('"' :: ((pieces.flatMap Piece.text).reverse ++ out)) rest := by
  induction pieces generalizing out with
  | nil => rfl
  | cons piece pieces ih =>
    cases piece with
    | plain c h =>
      simp only [List.flatMap_cons, Piece.text, List.cons_append, List.nil_append]
      rw [copy, if_neg h.2.2, if_neg h.2.1, ih]
      simp
    | escaped c h =>
      simp only [List.flatMap_cons, Piece.text, List.cons_append, List.nil_append]
      rw [copy, if_pos rfl, copy, ih]
      simp
    | code a b c d h =>
      have hHex : ∀ x ∈ [a, b, c, d], x ≠ '\\' ∧ x ≠ '"' := by
        intro x hx
        have hDigit := h x hx
        constructor
        · rintro rfl
          cases hDigit
        · rintro rfl
          cases hDigit
      simp only [List.flatMap_cons, Piece.text, List.cons_append, List.nil_append]
      simp only [List.forall_mem_cons] at hHex
      obtain ⟨ha, hb, hc, hd, -⟩ := hHex
      rw [copy, if_pos rfl, copy, copy, if_neg ha.1, if_neg ha.2, copy, if_neg hb.1, if_neg hb.2, copy,
        if_neg hc.1, if_neg hc.2, copy, if_neg hd.1, if_neg hd.2, ih]
      simp

/-! ## Commas behind last elements -/

/-- A text, given last character first, that does not end in a comma and blanks. -/
def Settled (out : List Char) : Prop := (out.dropWhile Text.isBlank).head? ≠ some ','

theorem Settled.dropComma {out : List Char} (h : Settled out) : dropComma out = out := by
  rw [Comments.dropComma]
  split
  · rename_i before hComma
    rw [Settled, hComma] at h
    exact (h rfl).elim
  · rfl

theorem Settled.blanks {blanks : List Char} (hBlanks : ∀ c ∈ blanks, Text.isBlank c = true)
    {out : List Char} (h : Settled out) : Settled (blanks ++ out) := by
  rwa [Settled, List.dropWhile_append_of_pos hBlanks]

theorem settled_cons {c : Char} (hBlank : Text.isBlank c = false) (hComma : c ≠ ',')
    (out : List Char) : Settled (c :: out) := by
  rw [Settled, List.dropWhile_cons_of_neg (by simp [hBlank])]
  simpa using hComma

theorem dropComma_comma {blanks : List Char} (hBlanks : ∀ c ∈ blanks, Text.isBlank c = true)
    (out : List Char) : dropComma (blanks ++ ',' :: out) = out := by
  rw [dropComma, List.dropWhile_append_of_pos hBlanks, List.dropWhile_cons_of_neg (by decide)]
  rfl

/-! ## Copying layouts -/

theorem copy_filler (f : Filler) (out rest : List Char) :
    copy .code out (f.text ++ rest) =
      copy .code ((Gap.text f.residue).reverse ++ out) rest := by
  cases f with
  | blank c h =>
    exact copy_inert (inert_of_isBlank h) out rest
  | line text h =>
    rw [Filler.text, List.cons_append, List.cons_append, List.append_assoc, copy_openLine,
      copy_line h]
    rfl
  | block text h =>
    rw [Filler.text, List.cons_append, List.cons_append, List.append_assoc, copy_openBlock]
    exact copy_block h (by nofun) out rest

theorem copy_gap (gap : Gap) (out rest : List Char) :
    copy .code out (gap.text ++ rest) =
      copy .code (gap.residue.text.reverse ++ out) rest := by
  induction gap generalizing out with
  | nil => rfl
  | cons f gap ih =>
    have hText : Gap.text (f :: gap) = f.text ++ Gap.text gap := List.flatMap_cons ..
    have hResidue : (Gap.residue (f :: gap)).text =
        Gap.text f.residue ++ (Gap.residue gap).text := by
      rw [Gap.residue, List.flatMap_cons, Gap.text, List.flatMap_append]
      rfl
    rw [hText, List.append_assoc, copy_filler, ih, hResidue, List.reverse_append, List.append_assoc]

theorem inert_digit {c : Char} (h : c.isDigit = true) : Inert c := by
  refine ⟨?_, ?_, ?_, ?_⟩
  all_goals
    rintro rfl
    cases h

theorem inert_number (n : Number) : ∀ c ∈ n.text, Inert c := by
  have hDigits : ∀ d : Digits, ∀ c ∈ d.text, Inert c := fun d c hc => inert_digit (d.digits c hc)
  have hMinus : ∀ c ∈ (if n.minus then ['-'] else []), Inert c := by
    cases n.minus with
    | false => exact List.forall_mem_nil _
    | true => exact List.forall_mem_singleton.mpr (by decide)
  have hFraction : ∀ c ∈ n.fractionText, Inert c := by
    rw [Number.fractionText]
    cases n.fraction? with
    | none => exact List.forall_mem_nil _
    | some f =>
      rw [Option.map_some, Option.getD_some, List.forall_mem_cons]
      exact ⟨by decide, hDigits f⟩
  have hExponent : ∀ c ∈ n.exponentText, Inert c := by
    rw [Number.exponentText]
    cases n.exponent? with
    | none => exact List.forall_mem_nil _
    | some e =>
      have hLetter : Inert e.letter := by
        rcases e.isLetter with hLetter | hLetter <;> rw [hLetter] <;> decide
      have hSign : ∀ c ∈ e.sign, Inert c := by
        have hCases := e.isSign
        simp only [List.mem_cons, List.not_mem_nil, or_false] at hCases
        rcases hCases with hSign | hSign | hSign
        · exact hSign ▸ List.forall_mem_nil _
        · exact hSign ▸ List.forall_mem_singleton.mpr (by decide)
        · exact hSign ▸ List.forall_mem_singleton.mpr (by decide)
      rw [Option.map_some, Option.getD_some, Exponent.text, List.forall_mem_cons,
        List.forall_mem_append]
      exact ⟨hLetter, hSign, hDigits e.digits⟩
  rw [Number.text, Number.unsignedText, List.forall_mem_append, List.forall_mem_append,
    List.forall_mem_append]
  exact ⟨hMinus, hDigits n.whole, hFraction, hExponent⟩

theorem copy_lexeme (l : Lexeme) (hClosing : l.isClosing = false) (out rest : List Char) :
    copy .code out (l.text ++ rest) = copy .code (l.text.reverse ++ out) rest := by
  cases l with
  | closeArray => cases hClosing
  | closeObject => cases hClosing
  | string pieces =>
    rw [Lexeme.text, List.cons_append, List.append_assoc, List.singleton_append, copy_quote,
      copy_string]
    simp
  | number n => exact copy_inerts (inert_number n) out rest
  | openArray => rfl
  | openObject => rfl
  | comma => rfl
  | colon => rfl
  | null => rfl
  | bool b => cases b <;> rfl

theorem settled_digits (front : List Char) (d : Digits) (out : List Char) :
    Settled ((front ++ d.text).reverse ++ out) := by
  obtain ⟨digits, c, hText⟩ := (List.eq_nil_or_concat' d.text).resolve_left d.nonempty
  have hDigit := d.digits c (by rw [hText]; simp)
  have hBlank : Text.isBlank c = false := by
    simp only [Char.isDigit, Bool.and_eq_true, decide_eq_true_eq, ge_iff_le,
      UInt32.le_iff_toNat_le] at hDigit
    obtain ⟨hLow, hHigh⟩ : 48 ≤ c.toNat ∧ c.toNat ≤ 57 := hDigit
    simp only [Text.isBlank, Bool.or_eq_false_iff, Bool.and_eq_false_iff, decide_eq_false_iff_not,
      beq_eq_false_iff_ne]
    omega
  have hComma : c ≠ ',' := by
    rintro rfl
    cases hDigit
  rw [hText, ← List.append_assoc, List.reverse_append, List.reverse_singleton,
    List.singleton_append, List.cons_append]
  exact settled_cons hBlank hComma _

theorem settled_number (n : Number) (out : List Char) : Settled (n.text.reverse ++ out) := by
  rw [Number.text, Number.unsignedText, Number.fractionText, Number.exponentText]
  cases n.exponent? with
  | some e =>
    rw [Option.map_some, Option.getD_some, Exponent.text, ← List.cons_append, ← List.append_assoc,
      ← List.append_assoc, ← List.append_assoc]
    exact settled_digits _ e.digits out
  | none =>
    rw [Option.map_none, Option.getD_none, List.append_nil]
    cases n.fraction? with
    | some f =>
      rw [Option.map_some, Option.getD_some, ← List.append_assoc, List.append_cons]
      exact settled_digits _ f out
    | none =>
      rw [Option.map_none, Option.getD_none, List.append_nil]
      exact settled_digits _ n.whole out

/-- No lexeme but a comma ends in a comma. -/
theorem settled_lexeme {l : Lexeme} (h : l ≠ .comma) (out : List Char) :
    Settled (l.text.reverse ++ out) := by
  cases l with
  | comma => exact (h rfl).elim
  | number n => exact settled_number n out
  | string pieces =>
    rw [Lexeme.text, ← List.cons_append, List.reverse_append]
    exact settled_cons (by decide) (by decide) _
  | openArray => exact settled_cons (by decide) (by decide) _
  | closeArray => exact settled_cons (by decide) (by decide) _
  | openObject => exact settled_cons (by decide) (by decide) _
  | closeObject => exact settled_cons (by decide) (by decide) _
  | colon => exact settled_cons (by decide) (by decide) _
  | null => exact settled_cons (by decide) (by decide) _
  | bool b => cases b <;> exact settled_cons (by decide) (by decide) _

end Comments

/-! ## Layouts without comments -/

namespace Gap

theorem plain_residue (gap : Gap) : gap.residue.Plain := by
  intro f hf
  obtain ⟨g, -, hg⟩ := List.mem_flatMap.mp hf
  cases g with
  | blank c h => exact ⟨c, h, List.mem_singleton.mp hg⟩
  | line text h => exact ⟨'\n', rfl, List.mem_singleton.mp hg⟩
  | block text h => cases hg

namespace Plain

variable {gap : Gap} (h : gap.Plain)

include h

theorem residue : gap.residue = gap := by
  induction gap with
  | nil => rfl
  | cons f gap ih =>
    rw [Plain, List.forall_mem_cons] at h
    obtain ⟨⟨c, hBlank, rfl⟩, hGap⟩ := h
    rw [Gap.residue, List.flatMap_cons, Filler.residue, List.singleton_append]
    exact congrArg _ (ih hGap)

theorem blanks : ∀ c ∈ gap.text, Token.isBlank c = true := by
  intro c hc
  obtain ⟨f, hf, hText⟩ := List.mem_flatMap.mp hc
  obtain ⟨b, hBlank, rfl⟩ := h f hf
  rwa [List.mem_singleton.mp hText]

end Plain

end Gap

theorem blanks_residue (gap : Gap) : ∀ c ∈ gap.residue.text.reverse, Text.isBlank c = true := by
  intro c hc
  exact Comments.blank_of_isBlank (gap.plain_residue.blanks c (List.mem_reverse.mp hc))

theorem Lexeme.text_closing {l : Lexeme} (h : l.isClosing = true) :
    ∃ c, l.text = [c] ∧ (c = ']' ∨ c = '\x7d') := by
  cases l with
  | closeArray => exact ⟨']', rfl, .inl rfl⟩
  | closeObject => exact ⟨'\x7d', rfl, .inr rfl⟩
  | _ => cases h

namespace Comments

/-- A closing bracket takes back a comma in front of it; behind anything else it is copied like any
other lexeme. -/
theorem copy_lexeme_settled (l : Lexeme) {out : List Char}
    (hOut : l.isClosing = true → Settled out) (rest : List Char) :
    copy .code out (l.text ++ rest) = copy .code (l.text.reverse ++ out) rest := by
  cases hClosing : l.isClosing with
  | false => exact copy_lexeme l hClosing out rest
  | true =>
    obtain ⟨c, hText, hc⟩ := Lexeme.text_closing hClosing
    rw [hText, List.singleton_append, copy_closing hc, (hOut hClosing).dropComma]
    rfl

end Comments

namespace Layout

open Comments

theorem itemsText_cons (gap : Gap) (l : Lexeme) (items : List (Gap × Lexeme)) :
    itemsText ((gap, l) :: items) = gap.text ++ (l.text ++ itemsText items) := by
  rw [itemsText, List.flatMap_cons, List.append_assoc]
  rfl

theorem reverse_itemsText_cons (gap : Gap) (l : Lexeme) (items : List (Gap × Lexeme))
    (out : List Char) :
    (itemsText ((gap, l) :: items)).reverse ++ out =
      (itemsText items).reverse ++ (l.text.reverse ++ (gap.text.reverse ++ out)) := by
  rw [itemsText_cons, List.reverse_append, List.reverse_append, List.append_assoc, List.append_assoc]

theorem copy_tail (a : Layout) (out : List Char) :
    copy .code out a.tailText = out.reverse ++ a.tidied.tailText := by
  have hResidue : a.tidied.tailText = a.last.residue.text := List.append_nil _
  rw [hResidue, tailText, copy_gap]
  cases a.open? with
  | none =>
    rw [Option.map_none, Option.getD_none, copy_nil, List.reverse_append, List.reverse_reverse]
  | some comment =>
    have hOpen := copy_line comment.2 (a.last.residue.text.reverse ++ out) []
    rw [List.append_nil] at hOpen
    rw [Option.map_some, Option.getD_some, copy_openLine, hOpen, copy_nil, List.reverse_append,
      List.reverse_reverse]

theorem copy_items (items : List (Gap × Lexeme)) {out : List Char}
    (hOut : ∀ l ∈ (items.map Prod.snd).head?, l.isClosing = true → Settled out) (rest : List Char) :
    copy .code out (itemsText items ++ rest) =
      copy .code ((itemsText (tidyItems items)).reverse ++ out) rest := by
  -- At each item, a closing bracket must not find a comma in front of it: the comma of its own item
  -- is taken back with it, and no other item ends in one.
  fun_induction tidyItems items generalizing out with
  | case1 gap gap' l items hClosing ih =>
    obtain ⟨c, hText, hc⟩ := Lexeme.text_closing hClosing
    have hLexeme : l ≠ .comma := by
      rintro rfl
      cases hClosing
    have hSettled := settled_lexeme hLexeme (gap.residue.text.reverse ++ out)
    rw [itemsText_cons, itemsText_cons, List.append_assoc, List.append_assoc, List.append_assoc,
      List.append_assoc, copy_gap, copy_lexeme .comma rfl, copy_gap, reverse_itemsText_cons,
      ← ih fun _ _ _ => hSettled, hText, List.singleton_append, copy_closing hc]
    exact congrArg (fun kept => copy .code (c :: kept) _) (dropComma_comma (blanks_residue gap') _)
  | case2 gap gap' l items hOther ih =>
    rw [itemsText_cons, List.append_assoc, List.append_assoc, copy_gap, copy_lexeme .comma rfl,
      reverse_itemsText_cons]
    apply ih
    intro l' hHead hClosing
    obtain rfl : l = l' := Option.some.inj hHead
    exact (hOther hClosing).elim
  | case3 gap l items hNext ih =>
    have hGap : l.isClosing = true → Settled (gap.residue.text.reverse ++ out) := fun hClosing =>
      (hOut l rfl hClosing).blanks (blanks_residue gap)
    rw [itemsText_cons, List.append_assoc, List.append_assoc, copy_gap, copy_lexeme_settled l hGap,
      reverse_itemsText_cons]
    apply ih
    intro l' hHead hClosing
    apply settled_lexeme
    rintro rfl
    cases items with
    | nil => cases hHead
    | cons item items => exact hNext item.1 item.2 items rfl rfl
  | case4 => rfl

/-- A text without comments and last commas is the text of the tidied layout. -/
theorem withoutComments_text (a : Layout) : withoutComments a.text = a.tidied.text := by
  have hNothing : Settled [] := nofun
  rw [withoutComments, text, copy_items _ fun _ _ _ => hNothing, List.append_nil, copy_tail,
    List.reverse_reverse]
  rfl

/-! ## Tidied layouts -/

theorem plain_tidied (a : Layout) : a.tidied.Plain := by
  refine ⟨?_, a.last.plain_residue, rfl⟩
  change ∀ item ∈ tidyItems a.items, item.1.Plain
  fun_induction tidyItems a.items with
  | case1 gap gap' l items hClosing ih =>
    exact List.forall_mem_cons.mpr ⟨gap.plain_residue, ih⟩
  | case2 gap gap' l items hOther ih => exact List.forall_mem_cons.mpr ⟨gap.plain_residue, ih⟩
  | case3 gap l items hNext ih => exact List.forall_mem_cons.mpr ⟨gap.plain_residue, ih⟩
  | case4 => nofun

theorem lexemes_tidyItems (items : List (Gap × Lexeme)) :
    (tidyItems items).map Prod.snd = tidy (items.map Prod.snd) := by
  fun_induction tidyItems items with
  | case1 gap gap' l items hClosing ih =>
    change l :: (tidyItems items).map Prod.snd = tidy (.comma :: l :: items.map Prod.snd)
    rw [ih, tidy, if_pos hClosing]
  | case2 gap gap' l items hOther ih =>
    change .comma :: (tidyItems ((gap', l) :: items)).map Prod.snd =
      tidy (.comma :: l :: items.map Prod.snd)
    rw [ih, tidy, if_neg hOther]
    rfl
  | case3 gap l items hNext ih =>
    change l :: (tidyItems items).map Prod.snd = tidy (l :: items.map Prod.snd)
    rw [ih, tidy]
    intro l' rest hComma hItems
    obtain ⟨item, items', rfl, -, -⟩ := List.map_eq_cons_iff.mp hItems
    exact hNext item.1 item.2 items' rfl hComma
  | case4 => rfl

theorem tidyItems_eq (items : List (Gap × Lexeme)) (hPlain : ∀ item ∈ items, item.1.Plain)
    (hTidy : tidy (items.map Prod.snd) = items.map Prod.snd) : tidyItems items = items := by
  rw [← lexemes_tidyItems] at hTidy
  fun_induction tidyItems items with
  | case1 gap gap' l items hClosing ih =>
    obtain rfl : l = .comma := (List.cons.inj hTidy).1
    cases hClosing
  | case2 gap gap' l items hOther ih =>
    rw [List.forall_mem_cons] at hPlain
    rw [hPlain.1.residue, ih hPlain.2 (List.cons.inj hTidy).2]
  | case3 gap l items hNext ih =>
    rw [List.forall_mem_cons] at hPlain
    rw [hPlain.1.residue, ih hPlain.2 (List.cons.inj hTidy).2]
  | case4 => rfl

theorem lexemes_tidied (a : Layout) : a.tidied.lexemes = tidy a.lexemes := lexemes_tidyItems a.items

theorem tidied_eq {a : Layout} (h : a.Plain) (hTidy : tidy a.lexemes = a.lexemes) : a.tidied = a := by
  obtain ⟨items, last, _⟩ := a
  obtain ⟨hItems, hLast, rfl⟩ := h
  rw [tidied, tidyItems_eq items hItems hTidy, hLast.residue]

end Layout

/-! ## The tokens of a layout -/

/-- Whether every number is followed by a mark, if by any lexeme. -/
def Separated (lexemes : List Lexeme) : Prop :=
  lexemes.IsChain fun l l' => l.isNumber = true → l'.isMark = true

namespace Token

theorem ofText_blanks {blanks : List Char} (h : ∀ c ∈ blanks, isBlank c = true)
    (text : List Char) : ofText (blanks ++ text) = ofText text := by
  induction blanks with
  | nil => rfl
  | cons c blanks ih =>
    rw [List.forall_mem_cons] at h
    rw [List.cons_append, ofText_blank h.1, ih h.2]

theorem Ends.blanks {blanks text : List Char} (hBlanks : ∀ c ∈ blanks, isBlank c = true)
    (h : Ends text) : Ends (blanks ++ text) := by
  cases blanks with
  | nil => exact h
  | cons c blanks =>
    intro d hd
    obtain rfl : c = d := Option.some.inj hd
    have hBlank := hBlanks c (.head _)
    simp only [isBlank, Bool.or_eq_true, beq_iff_eq] at hBlank
    rcases hBlank with ((rfl | rfl) | rfl) | rfl <;> decide

theorem ends_mark {l : Lexeme} (h : l.isMark = true) (text : List Char) :
    Ends (l.text ++ text) := by
  intro c hc
  cases l with
  | closeArray | closeObject | comma | colon =>
    cases hc
    decide
  | _ => cases h

end Token

namespace Layout

section Items

variable {items : List (Gap × Lexeme)} (hPlain : ∀ item ∈ items, item.1.Plain)
  {tail : List Char} (hTail : ∀ c ∈ tail, Token.isBlank c = true)

include hPlain hTail

theorem ends_items (hMark : ∀ l ∈ (items.map Prod.snd).head?, l.isMark = true) :
    Token.Ends (itemsText items ++ tail) := by
  cases items with
  | nil =>
    have hNone : Token.Ends [] := nofun
    have hEnds := hNone.blanks hTail
    rwa [List.append_nil] at hEnds
  | cons item items =>
    rw [itemsText_cons, List.append_assoc, List.append_assoc]
    exact (Token.ends_mark (hMark item.2 rfl) _).blanks (hPlain item (.head _)).blanks

theorem ofText_items (hNumbers : Separated (items.map Prod.snd)) :
    Token.ofText (itemsText items ++ tail) = (items.map Prod.snd).map Lexeme.token := by
  induction items with
  | nil =>
    have hNone := Token.ofText_blanks hTail []
    rwa [List.append_nil] at hNone
  | cons item items ih =>
    rw [List.forall_mem_cons] at hPlain
    rw [Separated, List.map_cons, List.isChain_cons] at hNumbers
    have hEnds : item.2.isNumber = true → Token.Ends (itemsText items ++ tail) := fun hNumber =>
      ends_items hPlain.2 hTail fun l hl => hNumbers.1 l hl hNumber
    rw [itemsText_cons, List.append_assoc, List.append_assoc, Token.ofText_blanks hPlain.1.blanks,
      Token.ofText_lexeme item.2 hEnds, ih hPlain.2 hNumbers.2]
    rfl

end Items

/-- Without comments, the tokens of a text are those of its lexemes. -/
theorem ofText_text {a : Layout} (h : a.Plain) (hNumbers : Separated a.lexemes) :
    Token.ofText a.text = a.lexemes.map Lexeme.token := by
  have hTail : ∀ c ∈ a.tailText, Token.isBlank c = true := by
    rw [tailText, h.closed, Option.map_none, Option.getD_none, List.append_nil]
    exact h.last.blanks
  exact ofText_items h.items hTail hNumbers

end Layout

end ModuleAtlas.Json
