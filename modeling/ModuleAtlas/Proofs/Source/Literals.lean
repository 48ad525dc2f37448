import ModuleAtlas.Proofs.Source.Escapes
import ModuleAtlas.Proofs.Source.Inert

/-!
# Scanning literals with escapes

A scan cuts a literal into the pieces that it is written with: an escape goes as far as it can, and
what stands between two escapes is one fragment.
-/

namespace ModuleAtlas.Source

/-- The text of a piece between quotes. -/
def Piece.text : Piece → List Char
  | fragment text => text
  | escape text => '\\' :: text

/-- The one piece does not go on in the other. -/
def Piece.Joins : Piece → Piece → Prop
  | _, escape _ => True
  | fragment _, fragment _ => False
  | escape e, fragment text => ∀ c ∈ text.head?, Escape.continues e c = false

/-- The text between the quotes is cut into these pieces. -/
structure IsCut (quote : Char) (pieces : List Piece) : Prop where
  nonempty : ∀ text, .fragment text ∈ pieces → text ≠ []
  plain : ∀ text, .fragment text ∈ pieces → ∀ c ∈ text, Scanner.IsPlain quote c
  substitution : quote = '`' → ∀ text, .fragment text ∈ pieces →
    text.IsChain fun a b => ¬ (a = '$' ∧ b = '\x7b')
  escape : ∀ text, .escape text ∈ pieces → Escape.IsEscape text
  joins : pieces.IsChain Piece.Joins

namespace Escape

/-- Each character of the text goes on with the escape of which some was read. -/
def GoesOn (read : List Char) : List Char → Prop
  | [] => True
  | c :: text => continues read c = true ∧ GoesOn (read ++ [c]) text

theorem goesOn_codePoint {read digits : List Char} (hDigits : ∀ d ∈ digits, isHex d = true)
    (hRead : '\x7d' ∉ read) : GoesOn ('u' :: '\x7b' :: read) (digits ++ ['\x7d']) := by
  induction digits generalizing read with
  | nil => simp [GoesOn, continues, hRead]
  | cons d digits ih =>
    rw [List.forall_mem_cons] at hDigits
    have hBrace : '\x7d' ≠ d := by
      rintro rfl
      cases hDigits.1
    refine ⟨by simp [continues, hRead, hDigits.1], ih hDigits.2 ?_⟩
    simp [hRead, hBrace]

theorem continues_octal {d e : Char} (hd : isOctal d = true) (he : isOctal e = true) :
    continues [d] e = true := by
  have hHex : d ≠ 'x' := ne_of_isOctal hd (by decide)
  have hUnicode : d ≠ 'u' := ne_of_isOctal hd (by decide)
  rw [continues] <;> simp_all

theorem continues_unicode {a c : Char} {digits : List Char} (ha : isHex a = true)
    (hc : isHex c = true) (hLength : digits.length < 3) :
    continues ('u' :: a :: digits) c = true := by
  have hBrace : a ≠ '\x7b' := by
    rintro rfl
    cases ha
  rw [continues]
  · simp [hc]
    omega
  · simp
  · simp [hBrace]

theorem IsEscape.goesOn {text : List Char} (h : IsEscape text) : GoesOn [] text := by
  cases h with
  | character _ _ => exact ⟨rfl, trivial⟩
  | octal hd he => exact ⟨rfl, continues_octal hd he, trivial⟩
  | longOctal hd he hf =>
    have hHex := ne_of_isOctal hd (show isOctal 'x' = false by decide)
    have hUnicode := ne_of_isOctal hd (show isOctal 'u' = false by decide)
    refine ⟨rfl, continues_octal hd he, ?_, trivial⟩
    change continues [_, _] _ = true
    rw [continues] <;> simp_all
  | hex ha hb => simp [GoesOn, continues, ha, hb]
  | unicode ha hb hc hd =>
    refine ⟨rfl, ?_, continues_unicode ha hb ?_, continues_unicode ha hc ?_,
      continues_unicode ha hd ?_, trivial⟩
    all_goals simp [continues, ha]
  | codePoint hDigits _ => exact ⟨rfl, rfl, goesOn_codePoint hDigits (by simp)⟩
  | lineEnd hc he =>
    refine ⟨rfl, ?_, trivial⟩
    rcases hc with rfl | rfl <;> simp [continues, he]

theorem IsEscape.ne_nil {text : List Char} (h : IsEscape text) : text ≠ [] := by
  cases h <;> nofun

theorem continues_eq_false {text : List Char} (hText : text ≠ []) {c : Char}
    (hc : c = '\\' ∨ Scanner.IsQuote c) : continues text c = false := by
  have hPlain : isHex c = false ∧ isOctal c = false ∧ isLineEnd c = false ∧ c ≠ '\x7b' ∧
      c ≠ '\x7d' := by
    rcases hc with rfl | rfl | rfl | rfl <;> decide
  obtain ⟨hHex, hOctal, hLine, hOpening, hClosing⟩ := hPlain
  unfold continues
  split <;> simp_all

end Escape

namespace Scanner

variable {s : Scanner} {quote : Char} {earlier : List Piece} {fragment : List Char} {top : Frame}
  {outer : List Frame}

theorem foldl_escape {text read : List Char} (hText : Escape.GoesOn read text)
    (hMode : s.mode = .escape quote earlier read) :
    text.foldl Scanner.advance s = { s with mode := .escape quote earlier (read ++ text) } := by
  induction text generalizing s read with
  | nil =>
    cases s
    cases hMode
    rw [List.append_nil]
    rfl
  | cons c text ih =>
    have hNext : s.advance c = { s with mode := .escape quote earlier (read ++ [c]) } := by
      rw [Scanner.advance, hMode]
      simp only [hText.1, if_true]
    rw [List.foldl_cons, hNext, ih hText.2 rfl, List.append_assoc]
    rfl

theorem pieces_nonempty {fragment : List Char} (h : fragment ≠ []) (earlier : List Piece) :
    pieces earlier fragment = .fragment fragment.reverse :: earlier := by
  rw [pieces, if_neg (by simpa using h)]

/-- Neither a backslash nor a quote goes on with what stands before it. -/
theorem separate_of_isCut {rest : List Piece}
    (hCut : IsCut quote ((pieces earlier fragment).reverse ++ rest)) {c : Char}
    (hc : c = '\\' ∨ IsQuote c) : Separate quote earlier fragment c := by
  constructor
  · rintro - -
    rcases hc with rfl | hQuote
    · decide
    · exact hQuote.ne_opening
  · rintro rfl e he
    have hPiece : Piece.escape e ∈ (pieces earlier []).reverse ++ rest :=
      List.mem_append_left rest (List.mem_reverse.mpr (List.mem_of_head? he))
    exact Escape.continues_eq_false (hCut.escape e hPiece).ne_nil hc

theorem InQuotes.readEscape (h : InQuotes s quote earlier fragment top outer) {rest : List Piece}
    (hQuote : IsQuote quote) (hCut : IsCut quote ((pieces earlier fragment).reverse ++ rest))
    {text : List Char} (hText : Escape.IsEscape text) :
    InQuotes (('\\' :: text).foldl Scanner.advance s) quote (.escape text :: pieces earlier fragment)
      [] top outer := by
  have hOpen : s.advance '\\' = { s with mode := .escape quote (pieces earlier fragment) [] } := by
    rw [h.advance_eq (separate_of_isCut hCut (.inl rfl)), readQuoted, if_neg]
    · rfl
    · rcases hQuote with rfl | rfl | rfl <;> decide
  rw [List.foldl_cons, hOpen, foldl_escape hText.goesOn rfl]
  exact ⟨.inr (.inr ⟨_, text, rfl, rfl, rfl⟩), h.frame, h.outer, h.code⟩

theorem InQuotes.readFragment (h : InQuotes s quote earlier fragment top outer) {text : List Char}
    {rest : List Piece}
    (hCut : IsCut quote ((pieces earlier fragment).reverse ++ .fragment text :: rest)) :
    InQuotes (text.foldl Scanner.advance s) quote (pieces earlier fragment) text.reverse top
      outer := by
  have hPiece : Piece.fragment text ∈ (pieces earlier fragment).reverse ++ .fragment text :: rest :=
    List.mem_append_right _ List.mem_cons_self
  have hJoins := (List.isChain_append.mp hCut.joins).2.2
  rw [List.getLast?_reverse] at hJoins
  cases fragment with
  | cons d before =>
    rw [pieces_nonempty (List.cons_ne_nil d before)] at hJoins
    exact (hJoins _ rfl _ rfl).elim
  | nil =>
    have hRead := h.foldl (hCut.plain text hPiece)
      (fun hTemplate => hCut.substitution hTemplate text hPiece)
      fun _ e he => hJoins (.escape e) he (.fragment text) rfl
    rwa [List.append_nil] at hRead

/-- The pieces are read one after the other, and each of them is complete when the next one starts. -/
theorem InQuotes.foldl_pieces {ps : List Piece} (h : InQuotes s quote earlier fragment top outer)
    (hQuote : IsQuote quote) (hCut : IsCut quote ((pieces earlier fragment).reverse ++ ps)) :
    ∃ earlier' fragment',
      InQuotes ((ps.flatMap Piece.text).foldl Scanner.advance s) quote earlier' fragment' top outer ∧
        (pieces earlier' fragment').reverse = (pieces earlier fragment).reverse ++ ps := by
  induction ps generalizing s earlier fragment with
  | nil => exact ⟨earlier, fragment, h, (List.append_nil _).symm⟩
  | cons p ps ih =>
    rw [List.flatMap_cons, List.foldl_append]
    have hAll : (pieces earlier fragment).reverse ++ p :: ps =
        (p :: pieces earlier fragment).reverse ++ ps := by
      rw [List.reverse_cons, List.append_assoc, List.singleton_append]
    cases p with
    | fragment text =>
      have hText : text.reverse ≠ [] := by
        simpa using hCut.nonempty text (List.mem_append_right _ List.mem_cons_self)
      have hDone := pieces_nonempty hText (pieces earlier fragment)
      rw [List.reverse_reverse] at hDone
      have hRead := h.readFragment hCut
      rw [hAll, ← hDone] at hCut ⊢
      exact ih hRead hCut
    | escape text =>
      have hText := hCut.escape text (List.mem_append_right _ List.mem_cons_self)
      have hRead := h.readEscape hQuote hCut hText
      rw [hAll] at hCut ⊢
      exact ih hRead hCut

theorem Scans.cut (hQuote : IsQuote quote) {ps : List Piece} (hCut : IsCut quote ps) :
    Scans (.singleton quote ++ String.ofList (ps.flatMap Piece.text) ++ .singleton quote)
      [.literal ⟨quote == '`', ps⟩] := by
  intro s top outer h
  have hStart : IsCut quote ((pieces [] []).reverse ++ ps) := hCut
  obtain ⟨earlier, fragment, hInside, hPieces⟩ := (h.advance_quote hQuote).foldl_pieces hQuote hStart
  have hPieces : (pieces earlier fragment).reverse = ps := hPieces
  have hEnd : IsCut quote ((pieces earlier fragment).reverse ++ []) := by
    rwa [List.append_nil, hPieces]
  have hClosed := hInside.advance_quote (separate_of_isCut hEnd (.inr hQuote))
  rw [hPieces] at hClosed
  simp only [String.toList_append, List.foldl_append, String.toList_singleton, List.foldl_cons,
    List.foldl_nil, String.toList_ofList]
  exact hClosed

end Scanner

end ModuleAtlas.Source
