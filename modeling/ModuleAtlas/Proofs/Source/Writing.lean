import ModuleAtlas.Project.Basic
import ModuleAtlas.Proofs.Source.Lines

/-!
# Writing declarations

Source texts written line by line: declarations that name a module, and lines that only look as if
they did, because comments and strings may hold any text. Each line says which reference it makes
and which tokens it is made of, and a scan of the written text finds those tokens.
-/

namespace ModuleAtlas.Source

/-! ## What lines are written with -/

/-- The characters of the general category `Cc`. -/
def isControlCharacter (c : Char) : Bool := c.toNat < 0x20 || (0x7F ≤ c.toNat && c.toNat < 0xA0)

def isLineSeparator (c : Char) : Bool := c == '\u2028' || c == '\u2029'

/-- Words that a declaration cannot bind, or that have a meaning of their own in one. -/
def reservedWords : List String :=
  ["as", "await", "break", "case", "catch", "class", "const", "continue", "debugger", "default",
    "delete", "do", "else", "enum", "export", "extends", "false", "finally", "for", "from",
    "function", "if", "implements", "import", "in", "instanceof", "interface", "let", "new", "null",
    "package", "private", "protected", "public", "return", "static", "super", "switch", "this",
    "throw", "true", "try", "type", "typeof", "var", "void", "while", "with", "yield"]

structure Name where
  text : String
  word : Scanner.IsWord text
  notNumber : (text.toList.head?.any Char.isDigit) = false
  free : text ∉ reservedWords

def isSpecifierChar (c : Char) : Bool :=
  ! isControlCharacter c && ! isLineSeparator c && c != '"' && c != '\'' && c != '`' && c != '\\'

/-- A specifier that needs no escape between quotes of any kind. -/
structure Specifier where
  text : String
  chars : text.toList.all isSpecifierChar = true
  substitution : text.toList.IsChain fun a b => ¬ (a = '$' ∧ b = '\x7b')

inductive StringQuote where
  | double
  | single
deriving DecidableEq

def StringQuote.char : StringQuote → Char
  | double => '"'
  | single => '\''

inductive Quote where
  | string (quote : StringQuote)
  | template
deriving DecidableEq

def Quote.char : Quote → Char
  | string quote => quote.char
  | template => '`'

def spaced (text : String) : String := text ++ " "

def braced (text : String) : String := "\x7b" ++ (" " ++ text) ++ "\x7d"

def enclose (quote : Char) (text : String) : String := .singleton quote ++ text ++ .singleton quote

/-- A text without control characters, hence within a line. -/
structure Remark where
  text : String
  chars : (text.toList.all fun c => ! isControlCharacter c) = true

structure BlockRemark extends Remark where
  inside : text.toList.IsChain fun a b => ¬ (a = '*' ∧ b = '/')

structure StringRemark (quote : StringQuote) extends Remark where
  inside : (text.toList.all fun c => c != quote.char && c != '\\') = true

/-! ## Lines -/

/-- What an import binds. -/
inductive ImportClause where
  | nothing
  | default (name : Name)
  | named (name : Name)
  | namedType (name : Name)
  | everything (name : Name)
  | type (name : Name)

inductive ExportClause where
  | named (name : Name)
  | all
  | type (name : Name)

inductive Line where
  | imports (clause : ImportClause) (quote : StringQuote) (source : Specifier)
  | exports (clause : ExportClause) (quote : StringQuote) (source : Specifier)
  /-- A call of `import`, whose result may be bound to a name. -/
  | call (name? : Option Name) (quote : Quote) (argument : Specifier)
  | lineComment (remark : Remark)
  | blockComment (remark : BlockRemark)
  | string (quote : StringQuote) (remark : StringRemark quote) (semicolon : Bool)
  | blank

namespace ImportClause

def text : ImportClause → String
  | nothing => ""
  | default d => spaced d.text ++ "from "
  | named a => spaced (braced (spaced a.text)) ++ "from "
  | namedType t => spaced (braced ("type " ++ spaced t.text)) ++ "from "
  | everything ns => "* " ++ ("as " ++ (spaced ns.text ++ "from "))
  | type t => "type " ++ (spaced (braced (spaced t.text)) ++ "from ")

def typeOnly : ImportClause → Bool
  | type _ => true
  | _ => false

def tokens : ImportClause → List Token
  | nothing => []
  | default d => [.word d.text, .word "from"]
  | named a => [.group .curly [.word a.text], .word "from"]
  | namedType t => [.group .curly [.word "type", .word t.text], .word "from"]
  | everything ns => [.mark "*", .word "as", .word ns.text, .word "from"]
  | type t => [.word "type", .group .curly [.word t.text], .word "from"]

end ImportClause

namespace ExportClause

def text : ExportClause → String
  | named a => spaced (braced (spaced a.text)) ++ "from "
  | all => "* " ++ "from "
  | type t => "type " ++ (spaced (braced (spaced t.text)) ++ "from ")

def typeOnly : ExportClause → Bool
  | type _ => true
  | _ => false

def tokens : ExportClause → List Token
  | named a => [.group .curly [.word a.text], .word "from"]
  | all => [.mark "*", .word "from"]
  | type t => [.word "type", .group .curly [.word t.text], .word "from"]

end ExportClause

namespace Line

def text : Line → String
  | imports clause quote source =>
    "import " ++ (clause.text ++ (enclose quote.char source.text ++ ";"))
  | exports clause quote source =>
    "export " ++ (clause.text ++ (enclose quote.char source.text ++ ";"))
  | call none quote argument => "import" ++ "(" ++ enclose quote.char argument.text ++ ")" ++ ";"
  | call (some v) quote argument =>
    "const " ++ (spaced v.text ++ ("= " ++
      ("import" ++ "(" ++ enclose quote.char argument.text ++ ")" ++ ";")))
  | lineComment remark => "//" ++ remark.text
  | blockComment remark => "/*" ++ remark.text ++ "*/"
  | string quote remark semicolon =>
    enclose quote.char remark.text ++ if semicolon then ";" else ""
  | blank => ""

/-- The reference that a reader of the line expects. -/
def reference? : Line → Option Reference
  | imports clause _ source => some ⟨source.text, .static, clause.typeOnly⟩
  | exports clause _ source => some ⟨source.text, .reExport, clause.typeOnly⟩
  | call _ _ argument => some ⟨argument.text, .dynamic, false⟩
  | lineComment _ | blockComment _ | string _ _ _ | blank => none

def tokens : Line → List Token
  | imports clause quote source =>
    .word "import" :: (clause.tokens ++
      [.literal (Scanner.literalOf quote.char source.text), .mark ";"])
  | exports clause quote source =>
    .word "export" :: (clause.tokens ++
      [.literal (Scanner.literalOf quote.char source.text), .mark ";"])
  | call none quote argument =>
    [.word "import", .group .round [.literal (Scanner.literalOf quote.char argument.text)],
      .mark ";"]
  | call (some v) quote argument =>
    [.word "const", .word v.text, .mark "=", .word "import",
      .group .round [.literal (Scanner.literalOf quote.char argument.text)], .mark ";"]
  | lineComment _ | blockComment _ => [.comment]
  | string quote remark semicolon =>
    .literal (Scanner.literalOf quote.char remark.text) :: if semicolon then [.mark ";"] else []
  | blank => []

/-- No character of the line ends a comment before the line does. -/
def endsAtLineBreak : Line → Bool
  | lineComment remark => remark.text.toList.all fun c => ! isLineSeparator c
  | _ => true

end Line

/-- The text with a line of its own for each item. -/
def write (lines : List Line) : String := "\n".intercalate (lines.map Line.text)

/-! ## Scanning what was written -/

open Scanner

theorem ne_lineEnd {c : Char} (h : isControlCharacter c = false) : c ≠ '\n' ∧ c ≠ '\r' := by
  constructor
  · rintro rfl
    cases h
  · rintro rfl
    cases h

theorem Remark.not_control (r : Remark) : ∀ c ∈ r.text.toList, isControlCharacter c = false := by
  simpa using r.chars

theorem Remark.isCommentEnd_eq (r : Remark)
    (h : (r.text.toList.all fun c => ! isLineSeparator c) = true) :
    ∀ c ∈ r.text.toList, isCommentEnd c = false := by
  intro c hc
  obtain ⟨hLine, hReturn⟩ := ne_lineEnd (r.not_control c hc)
  have hSeparator := List.all_eq_true.mp h c hc
  simp only [isLineSeparator, Bool.not_eq_true', Bool.or_eq_false_iff, beq_eq_false_iff_ne]
    at hSeparator
  simp only [isCommentEnd, Bool.or_eq_false_iff, beq_eq_false_iff_ne]
  exact ⟨⟨⟨hLine, hReturn⟩, hSeparator.1⟩, hSeparator.2⟩

theorem Specifier.quotable (s : Specifier) (quote : Quote) : Quotable quote.char s.text where
  chars c hc := by
    have hChar := List.all_eq_true.mp s.chars c hc
    simp only [isSpecifierChar, Bool.and_eq_true, Bool.not_eq_true', bne_iff_ne] at hChar
    obtain ⟨⟨⟨⟨⟨hControl, -⟩, hDouble⟩, hSingle⟩, hBack⟩, hEscape⟩ := hChar
    obtain ⟨hLine, hReturn⟩ := ne_lineEnd hControl
    refine ⟨?_, hEscape, hLine, hReturn⟩
    rcases quote with (_ | _) | _ <;> assumption
  substitution _ := s.substitution

theorem StringRemark.quotable {quote : StringQuote} (r : StringRemark quote) :
    Quotable quote.char r.text where
  chars c hc := by
    have hChar := List.all_eq_true.mp r.inside c hc
    simp only [Bool.and_eq_true, bne_iff_ne] at hChar
    exact ⟨hChar.1, hChar.2, ne_lineEnd (r.not_control c hc)⟩
  substitution h := by cases quote <;> cases h

theorem Quote.isQuote (quote : Quote) : IsQuote quote.char := by
  rcases quote with (_ | _) | _
  · exact .inl rfl
  · exact .inr (.inl rfl)
  · exact .inr (.inr rfl)

theorem scans_specifier (quote : Quote) (s : Specifier) :
    Scans (enclose quote.char s.text) [.literal (literalOf quote.char s.text)] :=
  Scans.literal quote.isQuote (s.quotable quote)

theorem Name.scans (n : Name) : Scans (spaced n.text) [.word n.text] := Scans.word n.word

theorem scans_from : Scans "from " [.word "from"] := Scans.word (w := "from") (by decide)

theorem scans_type : Scans "type " [.word "type"] := Scans.word (w := "type") (by decide)

theorem scans_star : Scans "* " [.mark "*"] := Scans.star.append Scans.space

theorem scans_braced {text : String} {ts : List Token} (h : Scans text ts) :
    Scans (spaced (braced text)) [.group .curly ts] :=
  (Scans.space.append h).curly.append Scans.space

theorem ImportClause.scans (clause : ImportClause) : Scans clause.text clause.tokens := by
  cases clause with
  | nothing => exact Scans.empty
  | default d => exact d.scans.append scans_from
  | named a => exact (scans_braced a.scans).append scans_from
  | namedType t => exact (scans_braced (scans_type.append t.scans)).append scans_from
  | everything ns =>
    have hAs : Scans "as " [.word "as"] := Scans.word (w := "as") (by decide)
    exact scans_star.append (hAs.append (ns.scans.append scans_from))
  | type t => exact scans_type.append ((scans_braced t.scans).append scans_from)

theorem ExportClause.scans (clause : ExportClause) : Scans clause.text clause.tokens := by
  cases clause with
  | named a => exact (scans_braced a.scans).append scans_from
  | all => exact scans_star.append scans_from
  | type t => exact scans_type.append ((scans_braced t.scans).append scans_from)

section Declarations

variable {source : String} {l : Literal} (hSource : Scans source [.literal l])
include hSource

theorem ImportClause.scans_declaration (clause : ImportClause) :
    Scans ("import " ++ (clause.text ++ (source ++ ";")))
      (.word "import" :: (clause.tokens ++ [.literal l, .mark ";"])) := by
  have hImport : Scans "import " [.word "import"] := Scans.word (w := "import") (by decide)
  exact hImport.append (clause.scans.append (hSource.append Scans.semicolon))

theorem ExportClause.scans_declaration (clause : ExportClause) :
    Scans ("export " ++ (clause.text ++ (source ++ ";")))
      (.word "export" :: (clause.tokens ++ [.literal l, .mark ";"])) := by
  have hExport : Scans "export " [.word "export"] := Scans.word (w := "export") (by decide)
  exact hExport.append (clause.scans.append (hSource.append Scans.semicolon))

theorem scans_call :
    Scans ("import" ++ "(" ++ source ++ ")" ++ ";")
      [.word "import", .group .round [.literal l], .mark ";"] :=
  (Scans.call (w := "import") (by decide) hSource).append Scans.semicolon

theorem scans_bound_call (v : Name) :
    Scans ("const " ++ (spaced v.text ++ ("= " ++ ("import" ++ "(" ++ source ++ ")" ++ ";"))))
      [.word "const", .word v.text, .mark "=", .word "import", .group .round [.literal l],
        .mark ";"] := by
  have hConst : Scans "const " [.word "const"] := Scans.word (w := "const") (by decide)
  exact hConst.append (v.scans.append (Scans.equals.append (scans_call hSource)))

end Declarations

theorem Line.scans (l : Line) (h : l.endsAtLineBreak = true) : ScansLine l.text l.tokens := by
  cases l with
  | imports clause quote source =>
    exact (clause.scans_declaration (scans_specifier (.string quote) source)).line
  | exports clause quote source =>
    exact (clause.scans_declaration (scans_specifier (.string quote) source)).line
  | call name? quote argument =>
    have hArgument := scans_specifier quote argument
    cases name? with
    | none => exact (scans_call hArgument).line
    | some v => exact (scans_bound_call hArgument v).line
  | lineComment remark => exact .comment (remark.isCommentEnd_eq h)
  | blockComment remark => exact (Scans.blockComment remark.inside).line
  | string quote remark semicolon =>
    have hString := Scans.literal (Quote.isQuote (.string quote)) remark.quotable
    cases semicolon with
    | false => exact (hString.append Scans.empty).line
    | true => exact (hString.append Scans.semicolon).line
  | blank => exact Scans.empty.line

end ModuleAtlas.Source
