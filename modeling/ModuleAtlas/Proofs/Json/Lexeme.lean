import Mathlib.Data.List.Basic
import Mathlib.Data.List.TakeDrop
import Mathlib.Data.List.TakeWhile
import ModuleAtlas.Json.Token

/-!
# Lexemes of JSON

The words that a JSON text is made of, as the grammar of the format spells them: marks, names,
numbers and strings with their escapes. A lexeme at the front of a text is read as one token, and
what follows it is left; only a number must not run on in what follows.
-/

namespace ModuleAtlas.Json

/-! ## Spelling -/

def isHex (c : Char) : Bool := c.isDigit || ('a' ≤ c && c ≤ 'f') || ('A' ≤ c && c ≤ 'F')

/-- The characters that have a short escape. -/
def escapable : List Char := ['"', '\\', '/', 'b', 'f', 'n', 'r', 't']

/-- A piece of a string between its quotes. -/
inductive Piece where
  | plain (c : Char) (h : 0x20 ≤ c.toNat ∧ c ≠ '"' ∧ c ≠ '\\')
  | escaped (c : Char) (h : c ∈ escapable)
  /-- A code unit in hexadecimal digits; half a surrogate pair is allowed. -/
  | code (a b c d : Char) (h : ∀ x ∈ [a, b, c, d], isHex x = true)

def Piece.text : Piece → List Char
  | plain c _ => [c]
  | escaped c _ => ['\\', c]
  | code a b c d _ => ['\\', 'u', a, b, c, d]

structure Digits where
  text : List Char
  nonempty : text ≠ []
  digits : ∀ c ∈ text, c.isDigit = true

structure Exponent where
  letter : Char
  isLetter : letter = 'e' ∨ letter = 'E'
  sign : List Char
  isSign : sign ∈ [[], ['-'], ['+']]
  digits : Digits

def Exponent.text (e : Exponent) : List Char := e.letter :: (e.sign ++ e.digits.text)

structure Number where
  minus : Bool
  whole : Digits
  /-- The whole part has no superfluous zero in front. -/
  proper : whole.text.head? = some '0' → whole.text = ['0']
  fraction? : Option Digits
  exponent? : Option Exponent

namespace Number

def fractionText (n : Number) : List Char := (n.fraction?.map fun f => '.' :: f.text).getD []

def exponentText (n : Number) : List Char := (n.exponent?.map Exponent.text).getD []

def unsignedText (n : Number) : List Char := n.whole.text ++ (n.fractionText ++ n.exponentText)

def text (n : Number) : List Char := (if n.minus then ['-'] else []) ++ n.unsignedText

end Number

inductive Lexeme where
  | openArray
  | closeArray
  | openObject
  | closeObject
  | comma
  | colon
  | null
  | bool (b : Bool)
  | number (n : Number)
  | string (pieces : List Piece)

namespace Lexeme

def text : Lexeme → List Char
  | openArray => ['[']
  | closeArray => [']']
  | openObject => ['\x7b']
  | closeObject => ['\x7d']
  | comma => [',']
  | colon => [':']
  | null => ['n', 'u', 'l', 'l']
  | bool true => ['t', 'r', 'u', 'e']
  | bool false => ['f', 'a', 'l', 's', 'e']
  | number n => n.text
  | string pieces => '"' :: (pieces.flatMap Piece.text ++ ['"'])

/-- The token that the lexeme alone is read as. -/
def token (l : Lexeme) : Token := (Token.ofText l.text).headD .null

def isNumber : Lexeme → Bool
  | number _ => true
  | _ => false

/-- Whether a lexeme can stand right behind a number. -/
def isMark : Lexeme → Bool
  | closeArray | closeObject | comma | colon => true
  | _ => false

end Lexeme

namespace Token

/-! ## Reading strings -/

theorem hexDigit?_isSome {c : Char} (h : isHex c = true) : (hexDigit? c).isSome = true := by
  simp only [isHex, Bool.or_eq_true, Bool.and_eq_true, decide_eq_true_eq] at h
  rw [hexDigit?]
  split
  · rfl
  split
  · rfl
  split
  · rfl
  · simp_all

theorem exists_hexNumber {a b c d : Char} (h : ∀ x ∈ [a, b, c, d], isHex x = true) :
    ∃ n, hexNumber? [a, b, c, d] = some n := by
  have hFold : ∀ (digits : List Char) (n : Nat), (∀ x ∈ digits, isHex x = true) →
      ∃ m, digits.foldl (fun n c => n.bind fun n => (hexDigit? c).map (16 * n + ·)) (some n) =
        some m := by
    intro digits n hDigits
    induction digits generalizing n with
    | nil => exact ⟨n, rfl⟩
    | cons x digits ih =>
      rw [List.forall_mem_cons] at hDigits
      obtain ⟨k, hDigit⟩ := Option.isSome_iff_exists.mp (hexDigit?_isSome hDigits.1)
      rw [List.foldl_cons, Option.bind_some, hDigit, Option.map_some]
      exact ih _ hDigits.2
  exact hFold _ 0 h

theorem readString_cons {c : Char} (h : c ≠ '\\') (rest : List Char) :
    readString (c :: rest) =
      if c = '"' then ⟨.ok [], .ok rest⟩
      else if c.toNat < 0x20 then .broken .malformed
      else (readString rest).prepend c := by
  rw [readString]
  · exact fun hc => (h hc).elim
  all_goals
    intros
    exact h ‹_›

theorem ne_unicode_of_escapable {c : Char} (h : c ∈ escapable) : c ≠ 'u' := by
  rintro rfl
  revert h
  decide

theorem exists_readString_escaped {c : Char} (h : c ∈ escapable) :
    ∃ d, ∀ rest, readString ('\\' :: c :: rest) = (readString rest).prepend d := by
  have hAll : (escapable.all fun c => (simpleEscape? c).isSome) = true := by decide
  obtain ⟨d, hEscape⟩ := Option.isSome_iff_exists.mp (List.all_eq_true.mp hAll c h)
  have hUnicode := ne_unicode_of_escapable h
  refine ⟨d, fun rest => ?_⟩
  rw [readString, hEscape]
  · exact fun _ _ _ _ _ hc => (hUnicode hc).elim
  · exact fun hc => hUnicode hc

/-- The rest of a string behind the first half of a pair. -/
def behindHigh (n : Nat) : List Char → Reading
  | '\\' :: 'u' :: e :: f :: g :: h :: behind =>
    match hexNumber? [e, f, g, h] with
    | none => .broken .malformed
    | some m =>
      if isLowHalf m then (readString behind).prepend (ofHalves n m)
      else (readString ('\\' :: 'u' :: e :: f :: g :: h :: behind)).withoutText .malformed
  | rest => (readString rest).withoutText (loneHalfFault rest)

theorem readString_code {a b c d : Char} {n : Nat} (h : hexNumber? [a, b, c, d] = some n)
    (rest : List Char) :
    readString ('\\' :: 'u' :: a :: b :: c :: d :: rest) =
      if isLowHalf n then (readString rest).withoutText .malformed
      else if isHighHalf n then behindHigh n rest
      else (readString rest).prepend (Char.ofNat n) := by
  rw [readString, h]
  rfl

theorem behindHigh_pair {n m : Nat} {e f g h : Char} (hSecond : hexNumber? [e, f, g, h] = some m)
    (behind : List Char) :
    behindHigh n ('\\' :: 'u' :: e :: f :: g :: h :: behind) =
      if isLowHalf m then (readString behind).prepend (ofHalves n m)
      else (readString ('\\' :: 'u' :: e :: f :: g :: h :: behind)).withoutText .malformed := by
  rw [behindHigh, hSecond]

/-- Nothing but a numeric escape can be the second half of a pair. -/
theorem behindHigh_lone {n : Nat} (pieces : List Piece)
    (hCode : ∀ a b c d h rest, pieces ≠ .code a b c d h :: rest) (rest : List Char) :
    behindHigh n (pieces.flatMap Piece.text ++ '"' :: rest) =
      (readString (pieces.flatMap Piece.text ++ '"' :: rest)).withoutText .malformed := by
  cases pieces with
  | nil => rfl
  | cons piece pieces =>
    cases piece with
    | plain c h =>
      simp only [List.flatMap_cons, Piece.text, List.cons_append, List.nil_append]
      rw [behindHigh, loneHalfFault]
      · nofun
      · exact fun hText => h.2.2 (List.cons.inj hText).1
      · exact fun _ hText => h.2.2 (List.cons.inj hText).1
      · exact fun _ _ _ _ _ hText => h.2.2 (List.cons.inj hText).1
    | escaped c h =>
      have hUnicode := ne_unicode_of_escapable h
      simp only [List.flatMap_cons, Piece.text, List.cons_append, List.nil_append]
      rw [behindHigh, loneHalfFault]
      · nofun
      · nofun
      · exact fun _ hText => hUnicode (List.cons.inj (List.cons.inj hText).2).1
      · exact fun _ _ _ _ _ hText => hUnicode (List.cons.inj (List.cons.inj hText).2).1
    | code a b c d h => exact (hCode a b c d h pieces rfl).elim

/-- Whether a string of such pieces ends at its quote, whatever stands behind it. -/
def Ended (pieces : List Piece) : Prop :=
  ∃ text, ∀ rest, readString (pieces.flatMap Piece.text ++ '"' :: rest) = ⟨text, .ok rest⟩

theorem Ended.code {a b c d : Char} (h : ∀ x ∈ [a, b, c, d], isHex x = true) {pieces : List Piece}
    (hEnded : ∀ more, more <:+ pieces → Ended more) : Ended (.code a b c d h :: pieces) := by
  obtain ⟨n, hNumber⟩ := exists_hexNumber h
  obtain ⟨text, hRest⟩ := hEnded pieces List.suffix_rfl
  simp only [Ended, List.flatMap_cons, Piece.text, List.cons_append, List.nil_append,
    readString_code hNumber]
  by_cases hLow : isLowHalf n = true
  · refine ⟨.error .malformed, fun rest => ?_⟩
    rw [if_pos hLow, hRest]
    rfl
  by_cases hHigh : isHighHalf n = true
  · simp only [if_neg hLow, if_pos hHigh]
    by_cases hCode : ∃ e f g i hHex more, pieces = .code e f g i hHex :: more
    · obtain ⟨e, f, g, i, hHex, more, rfl⟩ := hCode
      obtain ⟨m, hSecond⟩ := exists_hexNumber hHex
      obtain ⟨text', hMore⟩ := hEnded more (List.suffix_cons _ _)
      simp only [List.flatMap_cons, Piece.text, List.cons_append, List.nil_append] at hRest ⊢
      by_cases hPair : isLowHalf m = true
      · refine ⟨text'.map (ofHalves n m :: ·), fun rest => ?_⟩
        rw [behindHigh_pair hSecond, if_pos hPair, hMore]
        rfl
      · refine ⟨.error .malformed, fun rest => ?_⟩
        rw [behindHigh_pair hSecond, if_neg hPair, hRest]
        rfl
    · refine ⟨.error .malformed, fun rest => ?_⟩
      rw [behindHigh_lone pieces (by simpa using hCode), hRest]
      rfl
  · refine ⟨text.map (Char.ofNat n :: ·), fun rest => ?_⟩
    rw [if_neg hLow, if_neg hHigh, hRest]
    rfl

theorem ended (pieces : List Piece) : Ended pieces := by
  -- A surrogate pair takes two pieces at once, so the induction is on their number.
  induction hLength : pieces.length using Nat.strongRecOn generalizing pieces with
  | ind length ih =>
    subst hLength
    cases pieces with
    | nil =>
      refine ⟨.ok [], fun rest => ?_⟩
      rw [List.flatMap_nil, List.nil_append, readString_cons (by decide), if_pos rfl]
    | cons piece pieces =>
      have hEnded : ∀ more, more <:+ pieces → Ended more := fun more hMore =>
        ih more.length (Nat.lt_succ_of_le hMore.length_le) more rfl
      obtain ⟨text, hRest⟩ := hEnded pieces List.suffix_rfl
      cases piece with
      | plain c h =>
        obtain ⟨hCode, hQuote, hBackslash⟩ := h
        refine ⟨text.map (c :: ·), fun rest => ?_⟩
        rw [List.flatMap_cons, Piece.text, List.singleton_append, List.cons_append,
          readString_cons hBackslash, if_neg hQuote, if_neg (by omega), hRest]
        rfl
      | escaped c h =>
        obtain ⟨d, hEscape⟩ := exists_readString_escaped h
        refine ⟨text.map (d :: ·), fun rest => ?_⟩
        rw [List.flatMap_cons, Piece.text, List.append_assoc, List.cons_append, List.cons_append,
          List.nil_append, hEscape, hRest]
        rfl
      | code a b c d h => exact .code h hEnded

/-! ## Reading numbers -/

/-- Nothing that digits could run on in. -/
def NoDigit (rest : List Char) : Prop := ∀ c ∈ rest.head?, c.isDigit = false

/-- Nothing that a number could run on in. -/
def Ends (rest : List Char) : Prop :=
  ∀ c ∈ rest.head?, c.isDigit = false ∧ c ≠ '.' ∧ c ≠ 'e' ∧ c ≠ 'E'

theorem Ends.noDigit {rest : List Char} (h : Ends rest) : NoDigit rest := fun c hc => (h c hc).1

theorem readDigits_append (d : Digits) {rest : List Char} (h : NoDigit rest) :
    readDigits (d.text ++ rest) = .ok (d.text, rest) := by
  have hStop : rest.takeWhile Char.isDigit = [] ∧ rest.dropWhile Char.isDigit = rest := by
    cases rest with
    | nil => exact ⟨rfl, rfl⟩
    | cons c rest =>
      have hFirst : ¬ c.isDigit = true := by simpa using h c rfl
      exact ⟨List.takeWhile_cons_of_neg hFirst, List.dropWhile_cons_of_neg hFirst⟩
  rw [readDigits, List.span_eq_takeWhile_dropWhile, List.takeWhile_append_of_pos d.digits,
    List.dropWhile_append_of_pos d.digits, hStop.1, hStop.2, List.append_nil]
  split
  · rename_i hNone
    exact (d.nonempty (Prod.mk.inj hNone).1).elim
  · rename_i hNone
    exact (d.nonempty (Prod.mk.inj hNone).1).elim
  · rename_i hSplit
    rw [hSplit]

theorem readWhole_append (n : Number) {rest : List Char} (h : NoDigit rest) :
    readWhole (n.whole.text ++ rest) = .ok (n.whole.text, rest) := by
  rw [readWhole.eq_def]
  split
  · rename_i c behind hText
    have hHead : n.whole.text.head? = some '0' := by
      rw [← List.head?_append_of_ne_nil _ n.whole.nonempty, hText, List.head?_cons]
    rw [n.proper hHead] at hText ⊢
    have hRest : rest = c :: behind := (List.cons.inj hText).2
    have hDigit : ¬ c.isDigit = true := by simpa using h c (by rw [hRest]; rfl)
    rw [if_neg hDigit, hRest]
  · exact readDigits_append n.whole h

theorem ne_sign (d : Digits) {c : Char} (hSign : c.isDigit = false) (rest behind : List Char) :
    d.text ++ rest ≠ c :: behind := by
  obtain ⟨first, digits, hText⟩ := List.exists_cons_of_ne_nil d.nonempty
  have hDigit := d.digits first (by rw [hText]; exact .head _)
  rw [hText]
  intro hSame
  rw [(List.cons.inj hSame).1, hSign] at hDigit
  cases hDigit

theorem readExponent_letter {letter : Char} (h : letter = 'e' ∨ letter = 'E') (text : List Char) :
    readExponent (letter :: text) = readExponent ('e' :: text) := by
  rcases h with rfl | rfl
  · rfl
  · rfl

theorem exists_readExponent (e : Exponent) :
    ∃ value, ∀ rest, NoDigit rest → readExponent (e.text ++ rest) = .ok (value, rest) := by
  obtain ⟨letter, hLetter, sign, hSign, d⟩ := e
  simp only [Exponent.text, List.cons_append, readExponent_letter hLetter]
  simp only [List.mem_cons, List.not_mem_nil, or_false] at hSign
  rcases hSign with rfl | rfl | rfl
  · refine ⟨Int.ofNat (ofDigits d.text), fun rest hRest => ?_⟩
    rw [List.nil_append, readExponent, readDigits_append d hRest]
    · rfl
    · exact ne_sign d (by decide : '-'.isDigit = false) rest
    · exact ne_sign d (by decide : '+'.isDigit = false) rest
  · refine ⟨- Int.ofNat (ofDigits d.text), fun rest hRest => ?_⟩
    rw [List.cons_append, List.nil_append, List.cons_append, readExponent, readDigits_append d hRest]
    rfl
  · refine ⟨Int.ofNat (ofDigits d.text), fun rest hRest => ?_⟩
    rw [List.cons_append, List.nil_append, List.cons_append, readExponent, readDigits_append d hRest]
    rfl

theorem ends_exponent (n : Number) {rest : List Char} (h : Ends rest) :
    ∀ c ∈ (n.exponentText ++ rest).head?, c.isDigit = false ∧ c ≠ '.' := by
  rw [Number.exponentText]
  cases n.exponent? with
  | none => exact fun c hc => ⟨(h c hc).1, (h c hc).2.1⟩
  | some e =>
    rintro c hc
    obtain rfl : e.letter = c := Option.some.inj hc
    rcases e.isLetter with hLetter | hLetter
    all_goals
      rw [hLetter]
      decide

theorem noDigit_fraction (n : Number) {rest : List Char} (h : Ends rest) :
    NoDigit (n.fractionText ++ (n.exponentText ++ rest)) := by
  rw [Number.fractionText]
  cases n.fraction? with
  | none => exact fun c hc => (ends_exponent n h c hc).1
  | some f =>
    rintro c hc
    obtain rfl : '.' = c := Option.some.inj hc
    decide

theorem readFraction_append (n : Number) {rest : List Char} (h : Ends rest) :
    readFraction (n.fractionText ++ (n.exponentText ++ rest)) =
      .ok ((n.fraction?.map Digits.text).getD [], n.exponentText ++ rest) := by
  have hExponent := ends_exponent n h
  rw [Number.fractionText]
  cases n.fraction? with
  | none =>
    rw [Option.map_none, Option.getD_none, List.nil_append, readFraction]
    · rfl
    · intro behind hText
      rw [hText] at hExponent
      exact (hExponent '.' rfl).2 rfl
  | some f => exact readDigits_append f fun c hc => (hExponent c hc).1

theorem exists_readExponentText (n : Number) :
    ∃ value, ∀ rest, Ends rest → readExponent (n.exponentText ++ rest) = .ok (value, rest) := by
  rw [Number.exponentText]
  cases n.exponent? with
  | none =>
    refine ⟨0, fun rest hRest => ?_⟩
    rw [Option.map_none, Option.getD_none, List.nil_append, readExponent]
    · intro behind hText
      rw [hText] at hRest
      exact (hRest 'e' rfl).2.2.1 rfl
    · intro behind hText
      rw [hText] at hRest
      exact (hRest 'E' rfl).2.2.2 rfl
  | some e =>
    obtain ⟨value, hRead⟩ := exists_readExponent e
    exact ⟨value, fun rest hRest => hRead rest hRest.noDigit⟩

/-- A number ends before a text that it cannot run on in. -/
theorem exists_readNumber (n : Number) :
    ∃ fits, ∀ rest, Ends rest → readNumber (n.unsignedText ++ rest) = .ok (fits, rest) := by
  obtain ⟨value, hExponent⟩ := exists_readExponentText n
  let fraction : List Char := (n.fraction?.map Digits.text).getD []
  refine ⟨inRange (n.whole.text ++ fraction) (value - fraction.length), fun rest hRest => ?_⟩
  have hWhole := readWhole_append n (noDigit_fraction n hRest)
  have hFraction := readFraction_append n hRest
  rw [Number.unsignedText, List.append_assoc, List.append_assoc, readNumber, hWhole]
  simp only [bind, Except.bind, hFraction, hExponent rest hRest]
  rfl

/-! ## Reading lexemes -/

theorem first_digit {c : Char} (h : c.isDigit = true) (rest : List Char) :
    first c rest = numberToken (readNumber (c :: rest)) := by
  rw [first]
  · rw [if_pos h]
  all_goals
    rintro rfl
    cases h

theorem isBlank_digit {c : Char} (h : c.isDigit = true) : isBlank c = false := by
  by_contra hBlank
  simp only [isBlank, Bool.not_eq_false, Bool.or_eq_true, beq_iff_eq] at hBlank
  rcases hBlank with ((rfl | rfl) | rfl) | rfl <;> cases h

/-- A lexeme at the front of a text is one token, unless it is a number that runs on. -/
theorem first_lexeme (l : Lexeme) :
    ∃ c cs, l.text = c :: cs ∧ isBlank c = false ∧ ∃ t, ∀ rest,
      (l.isNumber = true → Ends rest) → first c (cs ++ rest) = (t, some rest) := by
  cases l with
  | openArray => exact ⟨'[', [], rfl, rfl, _, fun _ _ => rfl⟩
  | closeArray => exact ⟨']', [], rfl, rfl, _, fun _ _ => rfl⟩
  | openObject => exact ⟨'\x7b', [], rfl, rfl, _, fun _ _ => rfl⟩
  | closeObject => exact ⟨'\x7d', [], rfl, rfl, _, fun _ _ => rfl⟩
  | comma => exact ⟨',', [], rfl, rfl, _, fun _ _ => rfl⟩
  | colon => exact ⟨':', [], rfl, rfl, _, fun _ _ => rfl⟩
  | null => exact ⟨'n', ['u', 'l', 'l'], rfl, rfl, _, fun _ _ => rfl⟩
  | bool b =>
    cases b with
    | false => exact ⟨'f', ['a', 'l', 's', 'e'], rfl, rfl, _, fun _ _ => rfl⟩
    | true => exact ⟨'t', ['r', 'u', 'e'], rfl, rfl, _, fun _ _ => rfl⟩
  | number n =>
    obtain ⟨fits, hRead⟩ := exists_readNumber n
    cases hMinus : n.minus with
    | true =>
      refine ⟨'-', n.unsignedText, by rw [Lexeme.text, Number.text, hMinus]; rfl, rfl,
        (numberToken (.ok (fits, []))).1, fun rest hEnds => ?_⟩
      exact congrArg numberToken (hRead rest (hEnds rfl))
    | false =>
      obtain ⟨c, cs, hText⟩ := List.exists_cons_of_ne_nil n.whole.nonempty
      have hDigit := n.whole.digits c (by rw [hText]; exact .head _)
      have hUnsigned : n.unsignedText = c :: (cs ++ (n.fractionText ++ n.exponentText)) := by
        rw [Number.unsignedText, hText, List.cons_append]
      refine ⟨c, cs ++ (n.fractionText ++ n.exponentText),
        by rw [Lexeme.text, Number.text, hMinus, hUnsigned]; rfl, isBlank_digit hDigit,
        (numberToken (.ok (fits, []))).1, fun rest hEnds => ?_⟩
      rw [first_digit hDigit, ← List.cons_append, ← hUnsigned, hRead rest (hEnds rfl)]
      rfl
  | string pieces =>
    obtain ⟨text, hRead⟩ := ended pieces
    refine ⟨'"', pieces.flatMap Piece.text ++ ['"'], rfl, rfl,
      (stringToken ⟨text, .ok []⟩).1, fun rest _ => ?_⟩
    have hString : first '"' (pieces.flatMap Piece.text ++ ['"'] ++ rest) =
        stringToken (readString (pieces.flatMap Piece.text ++ '"' :: rest)) := by
      rw [List.append_assoc]
      rfl
    rw [hString, hRead]
    cases text with
    | ok text => rfl
    | error fault => rfl

theorem tokensBehind_append (cs rest : List Char) :
    tokensBehind cs.length (cs ++ rest) = tokensBehind 0 rest := by
  induction cs with
  | nil => rfl
  | cons c cs ih => exact ih

theorem ofText_blank {c : Char} (h : isBlank c = true) (text : List Char) :
    ofText (c :: text) = ofText text := by
  rw [ofText, tokensBehind, if_pos h]
  rfl

theorem exists_ofText_lexeme (l : Lexeme) :
    ∃ t, ∀ rest, (l.isNumber = true → Ends rest) → ofText (l.text ++ rest) = t :: ofText rest := by
  obtain ⟨c, cs, hText, hBlank, t, hFirst⟩ := first_lexeme l
  refine ⟨t, fun rest hEnds => ?_⟩
  have hLength : (cs ++ rest).length - rest.length = cs.length := by simp
  rw [hText, List.cons_append, ofText, tokensBehind, if_neg (by simp [hBlank]),
    hFirst rest hEnds]
  dsimp only
  rw [hLength, tokensBehind_append, ofText]

/-- A lexeme is one token in every text that it stands in front of, unless it is a number that runs
on there. -/
theorem ofText_lexeme (l : Lexeme) {rest : List Char} (h : l.isNumber = true → Ends rest) :
    ofText (l.text ++ rest) = l.token :: ofText rest := by
  obtain ⟨t, hText⟩ := exists_ofText_lexeme l
  have hToken : l.token = t := by
    have hAlone := hText [] fun _ => nofun
    rw [List.append_nil] at hAlone
    rw [Lexeme.token, hAlone]
    rfl
  rw [hToken, hText rest h]

end Token

end ModuleAtlas.Json
