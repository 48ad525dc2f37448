import Mathlib.Tactic.Tauto
import ModuleAtlas.Proofs.Text
import ModuleAtlas.Source.Scanner.Step

/-!
# Scanning plain code

Between two tokens of plain code, a scan reads the next token alike wherever it stands: what is due
only matters for regular expressions, divisions and tags. So each piece of code that ends between
tokens adds tokens of its own, and pieces side by side add theirs one after the other.
-/

namespace ModuleAtlas.Source.Scanner

/-- Neither the inside of a tag or an element nor the text of a template. -/
def Shape.isCode : Shape → Bool
  | tag _ | element | template => false
  | _ => true

theorem Shape.isTag_of_isCode {shape : Shape} (h : shape.isCode = true) : shape.isTag = false := by
  cases shape <;> first | rfl | cases h

/-- The frame with further tokens behind its own. -/
def Frame.append (f : Frame) (added : List Token) : Frame :=
  { f with items := added.reverse ++ f.items }

theorem Frame.append_append (f : Frame) (ts us : List Token) :
    (f.append ts).append us = f.append (ts ++ us) := by
  simp [append]

/-- The scan stands between two tokens of plain code. -/
structure InCode (s : Scanner) (top : Frame) (outer : List Frame) : Prop where
  mode : s.mode = .between
  frame : s.frame = top
  outer : s.outer = outer
  code : top.shape.isCode = true

/-- Reading the text between two tokens of plain code adds the tokens. -/
def Scans (text : String) (added : List Token) : Prop :=
  ∀ s top outer, InCode s top outer → InCode (text.toList.foldl advance s) (top.append added) outer

theorem Scans.empty : Scans "" [] := fun _ _ _ h => h

theorem Scans.append {text text' : String} {ts us : List Token} (h : Scans text ts)
    (h' : Scans text' us) : Scans (text ++ text') (ts ++ us) := by
  intro s top outer hCode
  rw [String.toList_append, List.foldl_append, ← Frame.append_append]
  exact h' _ _ _ (h _ _ _ hCode)

section Code

variable {s : Scanner} {top : Frame} {outer : List Frame}

theorem InCode.start_eq (h : InCode s top outer) (c : Char) : s.start c = s.startCode c := by
  obtain ⟨-, rfl, -, hCode⟩ := h
  rw [start]
  cases hShape : s.frame.shape <;> first | rfl | (rw [hShape] at hCode; cases hCode)

theorem InCode.advance_eq (h : InCode s top outer) (c : Char) : s.advance c = s.startCode c := by
  rw [advance, h.mode]
  exact h.start_eq c

theorem InCode.isTag_eq (h : InCode s top outer) : s.frame.shape.isTag = false :=
  Shape.isTag_of_isCode (h.frame ▸ h.code)

/-- A token of any kind was read, which started between two tokens. -/
theorem InCode.emit (h : InCode s top outer) (s' : Scanner) (hFrame : s'.frame = s.frame)
    (hOuter : s'.outer = s.outer) (t : Token) (due : Due) :
    InCode (s'.emit t due) (top.append [t]) outer where
  mode := rfl
  frame := by
    rw [← h.frame, ← hFrame]
    rfl
  outer := hOuter.trans h.outer
  code := h.code

theorem InCode.emitTrivia (h : InCode s top outer) (s' : Scanner) (hFrame : s'.frame = s.frame)
    (hOuter : s'.outer = s.outer) (t : Token) :
    InCode (s'.emitTrivia t) (top.append [t]) outer where
  mode := rfl
  frame := by
    rw [← h.frame, ← hFrame]
    rfl
  outer := hOuter.trans h.outer
  code := h.code

theorem InCode.startCode_space (h : InCode s top outer) : InCode (s.startCode ' ') top outer := h

end Code

/-! ## Spaces and marks -/

theorem Scans.char {text : String} {c : Char} {ts : List Token} (hText : text.toList = [c])
    (hStart : ∀ s top outer, InCode s top outer → InCode (s.startCode c) (top.append ts) outer) :
    Scans text ts := by
  intro s top outer h
  rw [hText, List.foldl_cons, h.advance_eq]
  exact hStart s top outer h

theorem Scans.space : Scans " " [] :=
  .char (c := ' ') rfl fun _ _ _ h => h.startCode_space

theorem Scans.semicolon : Scans ";" [.mark ";"] :=
  .char (c := ';') rfl fun s _ _ h => h.emit s rfl rfl _ _

theorem Scans.star : Scans "*" [.mark "*"] :=
  .char (c := '*') rfl fun s _ _ h => h.emit s rfl rfl _ _

/-- An equals sign ends at the character behind it, which might have continued it. -/
theorem Scans.equals : Scans "= " [.mark "="] := by
  intro s top outer h
  rw [show "= ".toList = ['=', ' '] from rfl, List.foldl_cons, h.advance_eq]
  have hRead : InCode (({ s with mode := .mark "=" } : Scanner).endMark "=")
      (top.append [.mark "="]) outer := h.emit _ rfl rfl _ _
  change InCode ((({ s with mode := .mark "=" } : Scanner).endMark "=").start ' ') _ _
  rw [hRead.start_eq]
  exact hRead.startCode_space

/-! ## Words -/

/-- The characters of plain names and keywords. -/
def isNameChar (c : Char) : Bool := c.isAlphanum || c == '_' || c == '$'

theorem isNameChar_cases {c : Char} (h : isNameChar c = true) :
    (48 ≤ c.toNat ∧ c.toNat ≤ 57) ∨ (65 ≤ c.toNat ∧ c.toNat ≤ 90) ∨
      (97 ≤ c.toNat ∧ c.toNat ≤ 122) ∨ c.toNat = 95 ∨ c.toNat = 36 := by
  simp only [isNameChar, Bool.or_eq_true, beq_iff_eq] at h
  rcases h with (h | rfl) | rfl
  · have hCases := Text.isAlphanum_cases h
    omega
  · decide
  · decide

theorem isWordChar_of_isNameChar {c : Char} (h : isNameChar c = true) : isWordChar c = true := by
  simp only [isNameChar, Bool.or_eq_true] at h
  simp only [isWordChar, Bool.or_eq_true]
  tauto

theorem isSpace_of_isNameChar {c : Char} (h : isNameChar c = true) : isSpace c = false := by
  have hCases := isNameChar_cases h
  have hFar : ∀ d : Char, 128 ≤ d.toNat → c ≠ d := by
    rintro d hd rfl
    omega
  simp only [isSpace, Text.isBlank, Bool.or_eq_false_iff, Bool.and_eq_false_iff,
    decide_eq_false_iff_not, beq_eq_false_iff_ne]
  refine ⟨⟨⟨?_, hFar _ (by decide)⟩, hFar _ (by decide)⟩, hFar _ (by decide)⟩
  omega

def IsWord (w : String) : Prop := w ≠ "" ∧ w.toList.all isNameChar = true

instance (w : String) : Decidable (IsWord w) := inferInstanceAs (Decidable (_ ∧ _))

theorem foldl_word {w : List Char} (hWord : w.all isNameChar = true) (s : Scanner)
    (read : List Char) (hMode : s.mode = .word read) :
    w.foldl advance s = { s with mode := .word (w.reverse ++ read) } := by
  induction w generalizing s read with
  | nil =>
    cases s
    cases hMode
    rfl
  | cons c w ih =>
    rw [List.all_cons, Bool.and_eq_true] at hWord
    have hNext : s.advance c = { s with mode := .word (c :: read) } := by
      rw [advance, hMode]
      simp only [continuesWord, isWordChar_of_isNameChar hWord.1, Bool.true_or, if_true]
    rw [List.foldl_cons, hNext, ih hWord.2 _ _ rfl, List.reverse_cons, List.append_assoc]
    rfl

/-- Whatever was read of a word before, the character is not part of it. -/
def EndsWord (c : Char) : Prop := ∀ read, continuesWord false read c = false

theorem endsWord_of_ne {c : Char} (hWord : isWordChar c = false) (hDot : c ≠ '.')
    (hOpening : c ≠ '\x7b') (hClosing : c ≠ '\x7d') : EndsWord c := by
  intro read
  have hEscape : inNameEscape read c = false := by
    unfold inNameEscape
    split
    · exact beq_eq_false_iff_ne.mpr hOpening
    · rw [beq_eq_false_iff_ne.mpr hClosing, Bool.false_and]
  rw [continuesWord, hWord, hEscape, beq_eq_false_iff_ne.mpr hDot]
  rfl

theorem endsWord_space : EndsWord ' ' :=
  endsWord_of_ne (by decide) (by decide) (by decide) (by decide)

theorem endsWord_round : EndsWord '(' :=
  endsWord_of_ne (by decide) (by decide) (by decide) (by decide)

/-- A word ends at the character behind it, which then is the first one of the next token. -/
theorem InCode.foldl_word {s : Scanner} {top : Frame} {outer : List Frame} (h : InCode s top outer)
    {w : String} (hWord : IsWord w) :
    ∃ s', InCode s' (top.append [.word w]) outer ∧
      ∀ c, EndsWord c → (w.toList.foldl advance s).advance c = s'.startCode c := by
  obtain ⟨hNonempty, hChars⟩ := hWord
  obtain ⟨first, later, hSplit⟩ :=
    List.exists_cons_of_ne_nil (mt String.toList_eq_nil_iff.mp hNonempty)
  rw [hSplit, List.all_cons, Bool.and_eq_true] at hChars
  have hStart : s.advance first = { s with mode := .word [first] } := by
    have hFirst := isWordChar_of_isNameChar hChars.1
    have hSpace := isSpace_of_isNameChar hChars.1
    have hLine : first ≠ '\n' := by
      rintro rfl
      cases hChars.1
    simp only [h.advance_eq, startCode, beq_eq_false_iff_ne.mpr hLine, hSpace, hFirst, startWord,
      Bool.false_eq_true, if_false, if_true]
  have hRead := Scanner.foldl_word hChars.2 { s with mode := .word [first] } [first] rfl
  have hText : String.ofList (later.reverse ++ [first]).reverse = w := by
    rw [List.reverse_append, List.reverse_reverse, List.reverse_singleton, List.singleton_append,
      ← hSplit, String.ofList_toList]
  let s' := ({ s with mode := .word (later.reverse ++ [first]) } : Scanner).endWord
    (later.reverse ++ [first])
  have hEnd : InCode s' (top.append [.word w]) outer := by
    have hTag := h.isTag_eq
    simp only [s', endWord, hTag, Bool.false_eq_true, if_false, hText]
    have hEmit := h.emit { s with mode := .word (later.reverse ++ [first]) } rfl rfl (.word w)
      (dueAfterWord s.due w)
    exact ⟨hEmit.mode, hEmit.frame, hEmit.outer, hEmit.code⟩
  refine ⟨s', hEnd, ?_⟩
  intro c hc
  rw [← hEnd.start_eq, hSplit, List.foldl_cons, hStart, hRead, advance]
  simp only [h.isTag_eq, hc _, Bool.false_eq_true, if_false, s']

theorem Scans.word {w : String} (hWord : IsWord w) : Scans (w ++ " ") [.word w] := by
  intro s top outer h
  obtain ⟨s', hEnd, hNext⟩ := h.foldl_word hWord
  rw [String.toList_append, List.foldl_append, show " ".toList = [' '] from rfl, List.foldl_cons,
    hNext _ endsWord_space]
  exact hEnd.startCode_space

/-! ## Groups -/

theorem startCode_round (s : Scanner) :
    s.startCode '(' = s.openGroup (.round s.control) .operand := rfl

theorem startCode_curly (s : Scanner) :
    s.startCode '\x7b' =
      if s.due = .operand then s.openGroup .object .operand else s.openGroup .block .statement := rfl

theorem InCode.openGroup {s : Scanner} {top : Frame} {outer : List Frame} (h : InCode s top outer)
    (shape : Shape) (hShape : shape.isCode = true) (due : Due) :
    InCode (s.openGroup shape due) ⟨shape, []⟩ (top :: outer) where
  mode := rfl
  frame := rfl
  outer := by
    rw [← h.frame, ← h.outer]
    rfl
  code := hShape

theorem InCode.closeBracket {s : Scanner} {f top : Frame} {outer : List Frame}
    (h : InCode s f (top :: outer)) (hTop : top.shape.isCode = true) {c : Char}
    (hCloses : f.shape.closesWith c = true) (hMode : modeAfter f.shape = .between) :
    InCode (s.closeBracket c) (top.append [f.close]) outer := by
  obtain ⟨-, rfl, hOuter, -⟩ := h
  rw [Scanner.closeBracket, hOuter, fitting, if_pos hCloses]
  exact ⟨hMode, rfl, rfl, hTop⟩

theorem Frame.close_append (shape : Shape) (ts : List Token) :
    (Frame.append ⟨shape, []⟩ ts).close = .group shape.bracket ts := by
  simp [append, close]

/-- A word that is called: nothing stands between it and its arguments. -/
theorem Scans.call {w text : String} {ts : List Token} (hWord : IsWord w) (h : Scans text ts) :
    Scans (w ++ "(" ++ text ++ ")") [.word w, .group .round ts] := by
  intro s top outer hCode
  obtain ⟨s', hEnd, hNext⟩ := hCode.foldl_word hWord
  have hOpen := hEnd.openGroup (.round s'.control) rfl .operand
  have hInside := h _ _ _ hOpen
  have hClose := hInside.closeBracket hEnd.code (c := ')') rfl rfl
  rw [Frame.close_append, Frame.append_append] at hClose
  simp only [String.toList_append, List.foldl_append, show "(".toList = ['('] from rfl,
    show ")".toList = [')'] from rfl, List.foldl_cons, List.foldl_nil]
  rw [hNext _ endsWord_round, startCode_round, hInside.advance_eq]
  exact hClose

theorem InCode.startCode_curly {s : Scanner} {top : Frame} {outer : List Frame}
    (h : InCode s top outer) :
    ∃ shape, (shape = .object ∨ shape = .block) ∧
      InCode (s.startCode '\x7b') ⟨shape, []⟩ (top :: outer) := by
  rw [Scanner.startCode_curly]
  split
  · exact ⟨_, .inl rfl, h.openGroup _ rfl _⟩
  · exact ⟨_, .inr rfl, h.openGroup _ rfl _⟩

/-- Braces hold the same tokens whether they are read as a block or as an object. -/
theorem Scans.curly {text : String} {ts : List Token} (h : Scans text ts) :
    Scans ("\x7b" ++ text ++ "\x7d") [.group .curly ts] := by
  intro s top outer hCode
  obtain ⟨shape, hShape, hOpen⟩ := hCode.startCode_curly
  have hInside := h _ _ _ hOpen
  have hClose := hInside.closeBracket (c := '\x7d') hCode.code
    (by rcases hShape with rfl | rfl <;> rfl) (by rcases hShape with rfl | rfl <;> rfl)
  have hBracket : shape.bracket = .curly := by rcases hShape with rfl | rfl <;> rfl
  rw [Frame.close_append, hBracket] at hClose
  simp only [String.toList_append, List.foldl_append, show "\x7b".toList = ['\x7b'] from rfl,
    show "\x7d".toList = ['\x7d'] from rfl, List.foldl_cons, List.foldl_nil]
  rw [hCode.advance_eq, hInside.advance_eq]
  exact hClose

end ModuleAtlas.Source.Scanner
