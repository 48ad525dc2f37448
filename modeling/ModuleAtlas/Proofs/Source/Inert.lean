import Mathlib.Data.List.Chain
import ModuleAtlas.Proofs.Source.Scanning

/-!
# Scanning text that is no code

Literals and comments are scanned whole: nothing inside of them is taken for code, whatever it
looks like. A literal without escapes holds its text as it stands. Only the end of a line ends a
comment that goes to the end of its line.
-/

namespace ModuleAtlas.Source.Scanner

/-! ## Literals -/

/-- Each character of the text stands for itself between the quotes. -/
structure Quotable (quote : Char) (text : String) : Prop where
  chars : ∀ c ∈ text.toList, c ≠ quote ∧ c ≠ '\\' ∧ c ≠ '\n' ∧ c ≠ '\r'
  substitution : quote = '`' → text.toList.IsChain fun a b => ¬ (a = '$' ∧ b = '\x7b')

/-- The literal that holds a text without escapes. -/
def literalOf (quote : Char) (text : String) : Literal :=
  ⟨quote == '`', (pieces [] text.toList.reverse).reverse⟩

@[simp] theorem value_literalOf (quote : Char) (text : String) :
    (literalOf quote text).value = text := by
  rw [literalOf, Literal.value, pieces]
  split
  · rename_i hEmpty
    simp only [List.isEmpty_reverse, List.isEmpty_iff, String.toList_eq_nil_iff] at hEmpty
    exact hEmpty.symm
  · simp [Piece.value]

/-- Inside of quotes, behind some pieces and a fragment. A dollar sign may yet open a substitution,
and an escape may yet go on. -/
structure InQuotes (s : Scanner) (quote : Char) (earlier : List Piece) (fragment : List Char)
    (top : Frame) (outer : List Frame) : Prop where
  mode : s.mode = .quoted quote earlier fragment ∨
    (quote = '`' ∧ ∃ before, fragment = '$' :: before ∧ s.mode = .dollar earlier before) ∨
    ∃ before text,
      earlier = .escape text :: before ∧ fragment = [] ∧ s.mode = .escape quote before text
  frame : s.frame = top
  outer : s.outer = outer
  code : top.shape.isCode = true

/-- The character neither opens a substitution nor goes on with an escape. -/
structure Separate (quote : Char) (earlier : List Piece) (fragment : List Char) (c : Char) :
    Prop where
  substitution : quote = '`' → fragment.head? = some '$' → c ≠ '\x7b'
  escape : fragment = [] → ∀ text, earlier.head? = some (.escape text) →
    Escape.continues text c = false

/-- The character stands for itself in a literal. -/
def IsPlain (quote c : Char) : Prop :=
  c ≠ quote ∧ c ≠ '\\' ∧ (quote ≠ '`' → c ≠ '\n' ∧ c ≠ '\r')

theorem Quotable.isPlain {quote : Char} {text : String} (h : Quotable quote text) :
    ∀ c ∈ text.toList, IsPlain quote c := by
  intro c hc
  obtain ⟨hQuote, hEscape, hLine⟩ := h.chars c hc
  exact ⟨hQuote, hEscape, fun _ => hLine⟩

section Quotes

variable {s : Scanner} {quote : Char} {earlier : List Piece} {fragment : List Char} {top : Frame}
  {outer : List Frame}

theorem InQuotes.advance_eq (h : InQuotes s quote earlier fragment top outer) {c : Char}
    (hSeparate : Separate quote earlier fragment c) :
    s.advance c = s.readQuoted quote earlier fragment c := by
  rcases h.mode with hMode | ⟨rfl, before, rfl, hMode⟩ | ⟨before, text, rfl, rfl, hMode⟩
  · rw [advance, hMode]
  · have hOpening := hSeparate.substitution rfl rfl
    simp only [advance, hMode, beq_eq_false_iff_ne.mpr hOpening, Bool.false_eq_true, if_false]
  · have hEnds := hSeparate.escape rfl text rfl
    simp only [advance, hMode, hEnds, Bool.false_eq_true, if_false]

theorem InQuotes.advance (h : InQuotes s quote earlier fragment top outer) {c : Char}
    (hPlain : IsPlain quote c) (hSeparate : Separate quote earlier fragment c) :
    InQuotes (s.advance c) quote earlier (c :: fragment) top outer := by
  obtain ⟨hQuote, hEscape, hLine⟩ := hPlain
  have hBreak : (quote != '`' && (c == '\n' || c == '\r')) = false := by
    by_cases hTemplate : quote = '`'
    · rw [hTemplate]
      rfl
    · obtain ⟨hNewline, hReturn⟩ := hLine hTemplate
      rw [beq_eq_false_iff_ne.mpr hNewline, beq_eq_false_iff_ne.mpr hReturn, Bool.or_self,
        Bool.and_false]
  rw [h.advance_eq hSeparate, readQuoted]
  simp only [beq_eq_false_iff_ne.mpr hQuote, beq_eq_false_iff_ne.mpr hEscape, hBreak,
    Bool.false_eq_true, if_false]
  split
  · rename_i hDollar
    simp only [Bool.and_eq_true, beq_iff_eq] at hDollar
    obtain ⟨rfl, hTemplate⟩ := hDollar
    exact ⟨.inr (.inl ⟨hTemplate, fragment, rfl, rfl⟩), h.frame, h.outer, h.code⟩
  · exact ⟨.inl rfl, h.frame, h.outer, h.code⟩

theorem InQuotes.foldl {text : List Char} (h : InQuotes s quote earlier fragment top outer)
    (hPlain : ∀ c ∈ text, IsPlain quote c)
    (hSubstitution : quote = '`' →
      (fragment.take 1 ++ text).IsChain fun a b => ¬ (a = '$' ∧ b = '\x7b'))
    (hEscape : fragment = [] → ∀ e, earlier.head? = some (.escape e) →
      ∀ c ∈ text.head?, Escape.continues e c = false) :
    InQuotes (text.foldl Scanner.advance s) quote earlier (text.reverse ++ fragment) top outer := by
  induction text generalizing s fragment with
  | nil => exact h
  | cons c text ih =>
    rw [List.forall_mem_cons] at hPlain
    have hSeparate : Separate quote earlier fragment c := by
      refine ⟨fun hQuote hHead => ?_, fun hEmpty e he => hEscape hEmpty e he c rfl⟩
      obtain ⟨before, rfl⟩ := List.head?_eq_some_iff.mp hHead
      have hPair := (List.isChain_cons_cons.mp (hSubstitution hQuote)).1
      exact fun hOpening => hPair ⟨rfl, hOpening⟩
    rw [List.foldl_cons, List.reverse_cons, List.append_assoc]
    exact ih (h.advance hPlain.1 hSeparate) hPlain.2
      (fun hQuote => (hSubstitution hQuote).right_of_append) nofun

theorem InQuotes.advance_quote (h : InQuotes s quote earlier fragment top outer)
    (hSeparate : Separate quote earlier fragment quote) :
    InCode (s.advance quote)
      (top.append [.literal ⟨quote == '`', (pieces earlier fragment).reverse⟩]) outer := by
  rw [h.advance_eq hSeparate]
  obtain ⟨-, rfl, hOuter, hCode⟩ := h
  have hShape : (s.frame.shape == .template) = false := by
    cases hShape : s.frame.shape <;> first | rfl | (rw [hShape] at hCode; cases hCode)
  rw [readQuoted, if_pos (beq_self_eq_true _), endQuoted, hShape, Bool.and_false]
  exact ⟨rfl, rfl, hOuter, hCode⟩

end Quotes

def IsQuote (c : Char) : Prop := c = '"' ∨ c = '\'' ∨ c = '`'

theorem IsQuote.ne_opening {c : Char} (h : IsQuote c) : c ≠ '\x7b' := by
  rcases h with rfl | rfl | rfl <;> decide

theorem InCode.advance_quote {s : Scanner} {top : Frame} {outer : List Frame}
    (h : InCode s top outer) {quote : Char} (hQuote : IsQuote quote) :
    InQuotes (s.advance quote) quote [] [] top outer := by
  rw [h.advance_eq]
  rcases hQuote with rfl | rfl | rfl <;> exact ⟨.inl rfl, h.frame, h.outer, h.code⟩

theorem Scans.literal {quote : Char} {text : String} (hQuote : IsQuote quote)
    (hText : Quotable quote text) :
    Scans (.singleton quote ++ text ++ .singleton quote) [.literal (literalOf quote text)] := by
  intro s top outer h
  have hInside := (h.advance_quote hQuote).foldl hText.isPlain hText.substitution nofun
  rw [List.append_nil] at hInside
  have hClosed := hInside.advance_quote ⟨fun _ _ => hQuote.ne_opening, nofun⟩
  simp only [String.toList_append, List.foldl_append, String.toList_singleton, List.foldl_cons,
    List.foldl_nil]
  exact hClosed

/-! ## Comments -/

theorem foldl_blockComment {text : List Char}
    (hText : text.IsChain fun a b => ¬ (a = '*' ∧ b = '/')) {s : Scanner} {afterStar : Bool}
    (hMode : s.mode = .blockComment afterStar) (hFirst : afterStar = true → text.head? ≠ some '/') :
    ∃ afterStar', text.foldl advance s = { s with mode := .blockComment afterStar' } := by
  induction text generalizing s afterStar with
  | nil =>
    cases s
    cases hMode
    exact ⟨afterStar, rfl⟩
  | cons c text ih =>
    have hNext : s.advance c = { s with mode := .blockComment (c == '*') } := by
      rw [advance, hMode]
      dsimp only
      rw [if_neg]
      rintro hEnd
      simp only [Bool.and_eq_true, beq_iff_eq] at hEnd
      exact hFirst hEnd.1 (congrArg some hEnd.2)
    obtain ⟨afterStar', hEnd⟩ := ih (s := { s with mode := .blockComment (c == '*') })
      (List.IsChain.tail hText) rfl (by
        intro hStar hHead
        obtain ⟨text', rfl⟩ := List.head?_eq_some_iff.mp hHead
        exact (List.isChain_cons_cons.mp hText).1 ⟨beq_iff_eq.mp hStar, rfl⟩)
    exact ⟨afterStar', by rw [List.foldl_cons, hNext, hEnd]⟩

theorem Scans.blockComment {text : String}
    (hText : text.toList.IsChain fun a b => ¬ (a = '*' ∧ b = '/')) :
    Scans ("/*" ++ text ++ "*/") [.comment] := by
  intro s top outer h
  have hOpen : ['/', '*'].foldl advance s = { s with mode := .blockComment false } := by
    rw [List.foldl_cons, h.advance_eq]
    rfl
  obtain ⟨afterStar, hRead⟩ :=
    foldl_blockComment hText (s := { s with mode := .blockComment false }) rfl nofun
  have hClose : ['*', '/'].foldl advance { s with mode := .blockComment afterStar } =
      s.emitTrivia .comment := by
    cases afterStar <;> rfl
  simp only [String.toList_append, List.foldl_append, show "/*".toList = ['/', '*'] from rfl,
    show "*/".toList = ['*', '/'] from rfl]
  rw [hOpen, hRead, hClose]
  exact h.emitTrivia _ rfl rfl _

theorem foldl_lineComment {text : List Char} (hText : ∀ c ∈ text, isCommentEnd c = false)
    {s : Scanner} (hMode : s.mode = .lineComment) : text.foldl advance s = s := by
  induction text with
  | nil => rfl
  | cons c text ih =>
    rw [List.forall_mem_cons] at hText
    have hNext : s.advance c = s := by
      simp only [advance, hMode, hText.1, Bool.false_eq_true, if_false]
    rw [List.foldl_cons, hNext, ih hText.2]

theorem InCode.foldl_lineComment {s : Scanner} {top : Frame} {outer : List Frame}
    (h : InCode s top outer) {text : String} (hText : ∀ c ∈ text.toList, isCommentEnd c = false) :
    ("//" ++ text).toList.foldl advance s = { s with mode := .lineComment } := by
  rw [String.toList_append, List.foldl_append, show "//".toList = ['/', '/'] from rfl,
    List.foldl_cons, h.advance_eq]
  exact Scanner.foldl_lineComment hText rfl

end ModuleAtlas.Source.Scanner
