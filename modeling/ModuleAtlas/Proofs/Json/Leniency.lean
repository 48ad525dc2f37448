import ModuleAtlas.Proofs.Json.Layout
import ModuleAtlas.TsConfig

/-!
# Lenient texts

A JSON value can be spelled with the blanks that the format allows, or leniently, with comments
between its lexemes and with commas behind last elements. Settings are read alike from both.
-/

namespace ModuleAtlas.Json

def Lexeme.isScalar : Lexeme → Bool
  | null | bool _ | number _ | string _ => true
  | _ => false

/-- A JSON value as it is spelled. Arrays and objects say whether a lenient text has a comma behind
their last element; there is none if they are empty. -/
inductive Tree where
  | scalar (l : Lexeme) (h : l.isScalar = true)
  | array (items : List Tree) (comma : Bool)
  | object (fields : List (List Piece × Tree)) (comma : Bool)

/-- Rows of lexemes with a comma behind each, the last one excepted unless one is asked for. -/
def joined (comma : Bool) : List (List Lexeme) → List Lexeme
  | [] => []
  | [row] => row ++ if comma then [.comma] else []
  | row :: rows => row ++ .comma :: joined comma rows

theorem joined_cons_cons (comma : Bool) (row next : List Lexeme) (rows : List (List Lexeme)) :
    joined comma (row :: next :: rows) = row ++ .comma :: joined comma (next :: rows) := rfl

theorem exists_joined (comma : Bool) (l : Lexeme) (row : List Lexeme) (rows : List (List Lexeme)) :
    ∃ tail, joined comma ((l :: row) :: rows) = l :: tail := by
  cases rows with
  | nil => exact ⟨row ++ if comma then [.comma] else [], rfl⟩
  | cons next rows => exact ⟨row ++ .comma :: joined comma (next :: rows), rfl⟩

mutual

def Tree.lexemes (lenient : Bool) : Tree → List Lexeme
  | .scalar l _ => [l]
  | .array items comma =>
    .openArray :: (joined (lenient && comma) (Tree.elements lenient items) ++ [.closeArray])
  | .object fields comma =>
    .openObject :: (joined (lenient && comma) (Tree.members lenient fields) ++ [.closeObject])

def Tree.elements (lenient : Bool) : List Tree → List (List Lexeme)
  | [] => []
  | t :: items => t.lexemes lenient :: Tree.elements lenient items

def Tree.members (lenient : Bool) : List (List Piece × Tree) → List (List Lexeme)
  | [] => []
  | (key, t) :: fields =>
    (.string key :: .colon :: t.lexemes lenient) :: Tree.members lenient fields

end

/-! ## Last commas -/

/-- A row of lexemes that does not start with a closing bracket and loses its last commas, whatever
follows it. -/
structure Tidies (row strict : List Lexeme) : Prop where
  opens : ∃ l more, row = l :: more ∧ l.isClosing = false
  tidy : ∀ rest, tidy (row ++ rest) = strict ++ tidy rest

theorem tidy_cons {l : Lexeme} (h : l ≠ .comma) (rest : List Lexeme) :
    tidy (l :: rest) = l :: tidy rest := by
  rw [tidy]
  exact fun _ _ hComma => (h hComma).elim

theorem tidy_comma {l : Lexeme} (h : l.isClosing = false) (rest : List Lexeme) :
    tidy (.comma :: l :: rest) = .comma :: tidy (l :: rest) := by
  rw [tidy, if_neg (by simp [h])]

theorem tidy_comma_closing {l : Lexeme} (h : l.isClosing = true) (rest : List Lexeme) :
    tidy (.comma :: l :: rest) = l :: tidy rest := by
  rw [tidy, if_pos h]

theorem ne_comma_of_isClosing {l : Lexeme} (h : l.isClosing = true) : l ≠ .comma := by
  rintro rfl
  cases h

theorem tidy_joined {rows strict : List (List Lexeme)} (h : List.Forall₂ Tidies rows strict)
    (comma : Bool) {l : Lexeme} (hClosing : l.isClosing = true) (rest : List Lexeme) :
    tidy (joined comma rows ++ l :: rest) = joined false strict ++ l :: tidy rest := by
  induction h with
  | nil => exact tidy_cons (ne_comma_of_isClosing hClosing) rest
  | @cons row strictRow rows strictRows hRow hRows ih =>
    cases hRows with
    | nil =>
      rw [joined, joined, if_neg Bool.false_ne_true, List.append_nil, List.append_assoc, hRow.tidy]
      cases comma with
      | false =>
        exact congrArg _ (tidy_cons (ne_comma_of_isClosing hClosing) rest)
      | true => exact congrArg _ (tidy_comma_closing hClosing rest)
    | @cons next strictNext more strictMore hNext hMore =>
      -- The comma between two rows stays, because no row starts with a closing bracket.
      obtain ⟨first, others, rfl, hOpens⟩ := hNext.opens
      obtain ⟨tail, hTail⟩ := exists_joined comma first others more
      have hComma : tidy (.comma :: (joined comma ((first :: others) :: more) ++ l :: rest)) =
          .comma :: tidy (joined comma ((first :: others) :: more) ++ l :: rest) := by
        rw [hTail]
        exact tidy_comma hOpens _
      rw [joined_cons_cons, joined_cons_cons, List.append_assoc, List.append_assoc, hRow.tidy,
        List.cons_append, hComma, ih]
      rfl

theorem Tidies.bracket {rows strict : List (List Lexeme)} (h : List.Forall₂ Tidies rows strict)
    (comma : Bool) {opening closing : Lexeme} (hOpens : opening.isClosing = false)
    (hComma : opening ≠ .comma) (hClosing : closing.isClosing = true) :
    Tidies (opening :: (joined comma rows ++ [closing]))
      (opening :: (joined false strict ++ [closing])) where
  opens := ⟨opening, _, rfl, hOpens⟩
  tidy := by
    intro rest
    rw [List.cons_append, tidy_cons hComma, List.append_assoc, List.singleton_append,
      tidy_joined h comma hClosing, List.cons_append, List.append_assoc]
    rfl

mutual

theorem Tree.tidies (lenient : Bool) (t : Tree) : Tidies (t.lexemes lenient) (t.lexemes false) := by
  cases t with
  | scalar l h =>
    have hOther : l.isClosing = false ∧ l ≠ .comma := by
      cases l with
      | null | bool b | number n | string pieces => exact ⟨rfl, nofun⟩
      | _ => cases h
    exact ⟨⟨l, [], rfl, hOther.1⟩, tidy_cons hOther.2⟩
  | array items comma => exact .bracket (Tree.tidies_elements lenient items) _ rfl nofun rfl
  | object fields comma => exact .bracket (Tree.tidies_members lenient fields) _ rfl nofun rfl

theorem Tree.tidies_elements (lenient : Bool) (items : List Tree) :
    List.Forall₂ Tidies (Tree.elements lenient items) (Tree.elements false items) := by
  cases items with
  | nil => exact .nil
  | cons t items => exact .cons (Tree.tidies lenient t) (Tree.tidies_elements lenient items)

theorem Tree.tidies_members (lenient : Bool) (fields : List (List Piece × Tree)) :
    List.Forall₂ Tidies (Tree.members lenient fields) (Tree.members false fields) := by
  cases fields with
  | nil => exact .nil
  | cons field fields =>
    obtain ⟨key, t⟩ := field
    refine .cons ⟨⟨.string key, _, rfl, rfl⟩, fun rest => ?_⟩ (Tree.tidies_members lenient fields)
    rw [List.cons_append, List.cons_append, tidy_cons (by nofun), tidy_cons (by nofun),
      (Tree.tidies lenient t).tidy]
    rfl

end

theorem Tree.tidy_lexemes (lenient : Bool) (t : Tree) :
    tidy (t.lexemes lenient) = t.lexemes false := by
  have hTidy := (t.tidies lenient).tidy []
  rwa [List.append_nil, tidy, List.append_nil] at hTidy

/-! ## Numbers -/

/-- A row of lexemes in which a number is followed by a mark, if one follows the row. -/
def Spaced (row : List Lexeme) : Prop :=
  ∀ rest, (∀ l ∈ rest.head?, l.isMark = true) → Separated rest → Separated (row ++ rest)

theorem separated_cons {l : Lexeme} (h : l.isNumber = false) {rest : List Lexeme}
    (hRest : Separated rest) : Separated (l :: rest) := by
  refine List.isChain_cons.mpr ⟨fun l' _ hNumber => ?_, hRest⟩
  rw [h] at hNumber
  cases hNumber

theorem separated_joined {rows : List (List Lexeme)} (h : ∀ row ∈ rows, Spaced row)
    (comma : Bool) {l : Lexeme} (hMark : l.isMark = true) {rest : List Lexeme}
    (hRest : Separated (l :: rest)) : Separated (joined comma rows ++ l :: rest) := by
  have hHead : ∀ {l : Lexeme} {rest}, l.isMark = true →
      ∀ l' ∈ (l :: rest).head?, l'.isMark = true := by
    rintro l rest hMark l' hl
    rwa [← Option.some.inj hl]
  have hComma : ∀ {rest}, Separated rest → Separated (.comma :: rest) := separated_cons rfl
  induction rows with
  | nil => exact hRest
  | cons row rows ih =>
    rw [List.forall_mem_cons] at h
    cases rows with
    | nil =>
      rw [joined, List.append_assoc]
      cases comma with
      | false => exact h.1 _ (hHead hMark) hRest
      | true => exact h.1 _ (hHead rfl) (hComma hRest)
    | cons next rows =>
      rw [joined_cons_cons, List.append_assoc]
      exact h.1 _ (hHead rfl) (hComma (ih h.2))

theorem Spaced.bracket {rows : List (List Lexeme)} (h : ∀ row ∈ rows, Spaced row) (comma : Bool)
    {opening closing : Lexeme} (hOpening : opening.isNumber = false)
    (hClosing : closing.isNumber = false) (hMark : closing.isMark = true) :
    Spaced (opening :: (joined comma rows ++ [closing])) := by
  intro rest _ hRest
  rw [List.cons_append, List.append_assoc]
  exact separated_cons hOpening (separated_joined h comma hMark (separated_cons hClosing hRest))

mutual

theorem Tree.spaced (lenient : Bool) (t : Tree) : Spaced (t.lexemes lenient) := by
  cases t with
  | scalar l h =>
    intro rest hMark hRest
    exact List.isChain_cons.mpr ⟨fun l' hl _ => hMark l' hl, hRest⟩
  | array items comma => exact .bracket (Tree.spaced_elements lenient items) _ rfl rfl rfl
  | object fields comma => exact .bracket (Tree.spaced_members lenient fields) _ rfl rfl rfl

theorem Tree.spaced_elements (lenient : Bool) (items : List Tree) :
    ∀ row ∈ Tree.elements lenient items, Spaced row := by
  cases items with
  | nil => nofun
  | cons t items =>
    exact List.forall_mem_cons.mpr ⟨Tree.spaced lenient t, Tree.spaced_elements lenient items⟩

theorem Tree.spaced_members (lenient : Bool) (fields : List (List Piece × Tree)) :
    ∀ row ∈ Tree.members lenient fields, Spaced row := by
  cases fields with
  | nil => nofun
  | cons field fields =>
    obtain ⟨key, t⟩ := field
    refine List.forall_mem_cons.mpr ⟨fun rest hMark hRest => ?_, Tree.spaced_members lenient fields⟩
    exact separated_cons rfl (separated_cons rfl (Tree.spaced lenient t rest hMark hRest))

end

theorem Tree.separated_lexemes (lenient : Bool) (t : Tree) : Separated (t.lexemes lenient) := by
  have hSpaced := t.spaced lenient [] nofun .nil
  rwa [List.append_nil] at hSpaced

/-! ## Texts of a value -/

/-- A text of the value in the format, without comments. -/
def Tree.Strict (t : Tree) (text : List Char) : Prop :=
  ∃ a : Layout, a.Plain ∧ a.lexemes = t.lexemes false ∧ a.text = text

/-- A text of the value that may have comments, and commas behind last elements. -/
def Tree.Lenient (t : Tree) (text : List Char) : Prop :=
  ∃ a : Layout, a.lexemes = t.lexemes true ∧ a.text = text

namespace Tree

variable {t : Tree} {text : List Char}

theorem Strict.withoutComments (h : t.Strict text) : withoutComments text = text := by
  obtain ⟨a, hPlain, hLexemes, rfl⟩ := h
  have hTidy : tidy a.lexemes = a.lexemes := by
    rw [hLexemes, t.tidy_lexemes]
  rw [a.withoutComments_text, Layout.tidied_eq hPlain hTidy]

theorem Strict.ofText (h : t.Strict text) :
    Token.ofText text = (t.lexemes false).map Lexeme.token := by
  obtain ⟨a, hPlain, hLexemes, rfl⟩ := h
  have hSeparated : Separated a.lexemes := by
    rw [hLexemes]
    exact t.separated_lexemes false
  rw [Layout.ofText_text hPlain hSeparated, hLexemes]

theorem Lenient.withoutComments (h : t.Lenient text) : t.Strict (withoutComments text) := by
  obtain ⟨a, hLexemes, rfl⟩ := h
  refine ⟨a.tidied, a.plain_tidied, ?_, a.withoutComments_text.symm⟩
  rw [a.lexemes_tidied, hLexemes, t.tidy_lexemes]

end Tree

end ModuleAtlas.Json

namespace ModuleAtlas.TsConfig

open Json

/-- Comments and commas behind last elements make no difference to the settings read, and nothing
changes in a text without them. What is left of a lenient text is a text of the same value: it has
the same lexemes, strings as they were spelled, and hence the same tokens. -/
theorem ofText_ignores_comments (t : Tree) (strict lenient : String) (hStrict : t.Strict strict.toList)
    (hLenient : t.Lenient lenient.toList) :
    withoutComments strict.toList = strict.toList ∧ t.Strict (withoutComments lenient.toList) ∧
      Token.ofText (withoutComments lenient.toList) = Token.ofText strict.toList ∧
      ofText lenient = ofText strict := by
  have hSame := hStrict.withoutComments
  have hLeft := hLenient.withoutComments
  have hTokens : Token.ofText (withoutComments lenient.toList) = Token.ofText strict.toList := by
    rw [hLeft.ofText, hStrict.ofText]
  refine ⟨hSame, hLeft, hTokens, ?_⟩
  rw [ofText, ofText, Reader.whole, Reader.whole, hSame, hTokens]

section Sample

/-- Whether a character needs no escape in a string. -/
def isPlain (c : Char) : Bool := 0x20 ≤ c.toNat && c ≠ '"' && c ≠ '\\'

def plainPieces (s : String) (h : s.toList.all isPlain = true) : List Piece :=
  s.toList.attach.map fun c => .plain c.1 (by
    simpa [isPlain, and_assoc] using List.all_eq_true.mp h c.1 c.2)

def sampleOptions : Lexeme := .string (plainPieces "compilerOptions" (by decide +kernel))

def sampleBase : Lexeme := .string (plainPieces "baseUrl" (by decide +kernel))

/-- A base directory whose spelling holds a comment mark, an escaped quote and a last comma. -/
def sampleUrl : Lexeme :=
  .string (plainPieces "//" (by decide +kernel) ++ [.escaped '"' (by decide)]
    ++ plainPieces ",]" (by decide +kernel))

def sampleTree : Tree :=
  .object [(plainPieces "compilerOptions" (by decide +kernel),
    .object [(plainPieces "baseUrl" (by decide +kernel), .scalar sampleUrl rfl)] true)] true

def sampleStrict : Layout where
  items := [([], .openObject), ([], sampleOptions), ([], .colon), ([], .openObject), ([], sampleBase),
    ([], .colon), ([.blank ' ' rfl], sampleUrl), ([], .closeObject), ([], .closeObject)]
  last := [.blank '\t' rfl]
  open? := none

def sampleLenient : Layout where
  items := [([.block "/ ,] ".toList (by decide +kernel)], .openObject),
    ([.line " \"a\": [".toList (by decide +kernel)], sampleOptions), ([], .colon),
    ([.block [] .nil], .openObject), ([], sampleBase), ([.blank ' ' rfl], .colon), ([], sampleUrl),
    ([.blank '\t' rfl, .block "]*".toList (by decide +kernel)], .comma),
    ([.line [] nofun], .closeObject), ([], .comma), ([.blank ' ' rfl], .closeObject)]
  last := []
  open? := some ⟨" end".toList, by decide +kernel⟩

theorem sample_read_alike :
    ofText ("/*/ ,] */\x7b// \"a\": [\n\"compilerOptions\":/**/\x7b\"baseUrl\" :\"//\\\",]\"\t" ++
        "/*]**/,//\n\x7d, \x7d// end") =
      ofText "\x7b\"compilerOptions\":\x7b\"baseUrl\": \"//\\\",]\"\x7d\x7d\t" ∧
    ((ofText "\x7b\"compilerOptions\":\x7b\"baseUrl\": \"//\\\",]\"\x7d\x7d\t").toOption.bind
      baseUrl?) = some "//\",]" := by
  refine ⟨(ofText_ignores_comments sampleTree _ _ ?_ ?_).2.2.2, by decide +kernel⟩
  · exact ⟨sampleStrict, sampleStrict.plain_tidied, rfl, by decide +kernel⟩
  · exact ⟨sampleLenient, rfl, by decide +kernel⟩

end Sample

end ModuleAtlas.TsConfig
