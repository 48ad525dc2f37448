import ModuleAtlas.Proofs.Source.Extraction
import ModuleAtlas.Proofs.Source.Literals

/-!
# Decoded specifiers

The specifier of a declaration or a call is what its literal is read as. It is what the literal means
as long as none of the escapes is misread: a letter for a control character, a line break, or an
octal digit that stands alone.
-/

namespace ModuleAtlas.Source

/-! ## Declarations and calls with any literals -/

/-- What stands between the quotes of a literal. -/
structure Body (quote : Quote) where
  pieces : List Piece
  isCut : IsCut quote.char pieces

namespace Body

variable {quote : Quote} (b : Body quote)

def text : String := String.ofList (b.pieces.flatMap Piece.text)

def literal : Literal := ⟨quote.char == '`', b.pieces⟩

theorem scans : Scanner.Scans (enclose quote.char b.text) [.literal b.literal] :=
  Scanner.Scans.cut quote.isQuote b.isCut

theorem isTemplate_literal {quote : StringQuote} (b : Body (.string quote)) :
    b.literal.isTemplate = false := by
  cases quote <;> rfl

end Body

/-- A declaration or a call that names a module by a literal. -/
inductive Use where
  | imports (clause : ImportClause) (quote : StringQuote) (source : Body (.string quote))
  | exports (clause : ExportClause) (quote : StringQuote) (source : Body (.string quote))
  | call (name? : Option Name) (quote : Quote) (argument : Body quote)

namespace Use

def text : Use → String
  | imports clause quote source =>
    "import " ++ (clause.text ++ (enclose quote.char source.text ++ ";"))
  | exports clause quote source =>
    "export " ++ (clause.text ++ (enclose quote.char source.text ++ ";"))
  | call none quote argument => "import" ++ "(" ++ enclose quote.char argument.text ++ ")" ++ ";"
  | call (some v) quote argument =>
    "const " ++ (spaced v.text ++ ("= " ++
      ("import" ++ "(" ++ enclose quote.char argument.text ++ ")" ++ ";")))

def literal : Use → Literal
  | imports _ _ source | exports _ _ source => source.literal
  | call _ _ argument => argument.literal

def reference : Use → Reference
  | imports clause _ source => ⟨source.literal.value, .static, clause.typeOnly⟩
  | exports clause _ source => ⟨source.literal.value, .reExport, clause.typeOnly⟩
  | call _ _ argument => ⟨argument.literal.value, .dynamic, false⟩

def tokens : Use → List Token
  | imports clause _ source =>
    .word "import" :: (clause.tokens ++ [.literal source.literal, .mark ";"])
  | exports clause _ source =>
    .word "export" :: (clause.tokens ++ [.literal source.literal, .mark ";"])
  | call none _ argument =>
    [.word "import", .group .round [.literal argument.literal], .mark ";"]
  | call (some v) _ argument =>
    [.word "const", .word v.text, .mark "=", .word "import",
      .group .round [.literal argument.literal], .mark ";"]

theorem scans (u : Use) : Scanner.Scans u.text u.tokens := by
  cases u with
  | imports clause quote source => exact clause.scans_declaration source.scans
  | exports clause quote source => exact clause.scans_declaration source.scans
  | call name? quote argument =>
    cases name? with
    | none => exact scans_call argument.scans
    | some v => exact scans_bound_call argument.scans v

theorem yields (u : Use) : Node.Yields u.tokens [u.reference] := by
  cases u with
  | imports clause quote source => exact clause.yields source.isTemplate_literal
  | exports clause quote source => exact clause.yields source.isTemplate_literal
  | call name? quote argument =>
    cases name? with
    | none => exact yields_call argument.literal
    | some v => exact yields_bound_call v argument.literal

theorem head?_text_ne (u : Use) : u.text.toList.head? ≠ some '#' := by
  cases u with
  | call name? quote argument => cases name? <;> simp [text]
  | _ => simp [text]

theorem specifier_reference (u : Use) : u.reference.specifier = u.literal.value := by
  cases u <;> rfl

theorem isEscape_of_mem (u : Use) {text : List Char} (h : Piece.escape text ∈ u.literal.pieces) :
    Escape.IsEscape text := by
  cases u with
  | imports _ _ body | exports _ _ body | call _ _ body => exact body.isCut.escape text h

end Use

/-- The text with a line for each declaration or call; a literal may go on over further lines. -/
def writeUses (uses : List Use) : String := "\n".intercalate (uses.map Use.text)

theorem references_writeUses (dialect : Dialect) (uses : List Use) :
    references dialect (writeUses uses) = uses.map Use.reference := by
  have hTokens := Scanner.tokens_lines dialect (fun u (_ : u ∈ uses) => u.scans.line)
    fun u _ => u.head?_text_ne
  have hYields := Node.Yields.intercalate uses (fun u _ => u.yields) []
  rw [List.append_nil] at hYields
  rw [references_eq_allReferences, Node.ofText, writeUses, hTokens, hYields, List.map_eq_flatMap]
  exact List.append_nil _

namespace Node

/-- The literal that names a module. -/
def source? : Node → Option Literal
  | importDeclaration _ source? _ | exportDeclaration _ source? _ | importCall source? _ => source?
  | other _ => none

theorem specifier_eq (n : Node) :
    n.reference?.map (·.specifier) = n.source?.map Literal.value := by
  cases n with
  | importDeclaration _ source? _ | exportDeclaration _ source? _ | importCall source? _ =>
    cases source? <;> rfl
  | other _ => rfl

end Node

/-- Specifiers are what the literals mean if and only if no escape is misread, in texts and in trees
of any origin. -/
theorem specifiers_mean_literals_iff_none_misread (dialect : Dialect) (uses : List Use) :
    references dialect (writeUses uses) = uses.map Use.reference ∧
      ((references dialect (writeUses uses)).map (·.specifier) = uses.map (·.literal.meaning) ↔
        ∀ u ∈ uses, ∀ text ∈ Escape.misread, Piece.escape text ∉ u.literal.pieces) ∧
      ∀ (n : Node) (l : Literal), n.source? = some l →
        (∀ text, Piece.escape text ∈ l.pieces → Escape.IsEscape text) →
          (n.reference?.map (·.specifier) = some l.meaning ↔
            ∀ text ∈ Escape.misread, Piece.escape text ∉ l.pieces) := by
  refine ⟨references_writeUses dialect uses, ?_, ?_⟩
  · rw [references_writeUses, List.map_map, List.map_inj_left]
    refine forall₂_congr fun u _ => ?_
    rw [Function.comp_apply, u.specifier_reference]
    exact Literal.value_eq_meaning_iff fun text hText => u.isEscape_of_mem hText
  · intro n l hSource hEscapes
    rw [n.specifier_eq, hSource, Option.map_some, Option.some_inj]
    exact Literal.value_eq_meaning_iff hEscapes

section Sample

/-- A body with an escaped backspace behind its path. -/
def backspaceBody : Body (.string .double) where
  pieces := [.fragment ['.', '/', 'a'], .escape ['b']]
  isCut :=
    { nonempty := by simp
      plain := by simp [Scanner.IsPlain, Quote.char, StringQuote.char]
      substitution := nofun
      escape := by
        intro text hText
        have hLetter : text = ['b'] := by simpa using hText
        rw [hLetter]
        exact .character (by decide) (by decide)
      joins := by simp [Piece.Joins] }

/-- A body with an escape of each kind that is read as it is meant. -/
def quotedBody : Body .template where
  pieces := [.fragment ['.', '/', '$'], .escape ['\x7b'], .escape ['u', '0', '0', '4', '1'],
    .fragment ['n'], .escape ['n']]
  isCut :=
    { nonempty := by simp
      plain := by simp [Scanner.IsPlain, Quote.char]
      substitution := by simp
      escape := by
        intro text hText
        have hKinds : text = ['\x7b'] ∨ text = ['u', '0', '0', '4', '1'] ∨ text = ['n'] := by
          simpa using hText
        rcases hKinds with rfl | rfl | rfl
        · exact .character (by decide) (by decide)
        · exact .unicode rfl rfl rfl rfl
        · exact .character (by decide) (by decide)
      joins := by simp [Piece.Joins, Escape.continues] }

example : writeUses [.call none .template quotedBody] = "import(`./$\\\x7b\\u0041n\\n`);" := by
  decide

theorem quoted_body_read_as_meant :
    (references .plain (writeUses [.call none .template quotedBody])).map (·.specifier) =
      ["./$\x7b\\u0041n\n"] :=
  (specifiers_mean_literals_iff_none_misread .plain [.call none .template quotedBody]).2.1.mpr
    (by decide)

theorem backspace_misread :
    ¬ ∀ (dialect : Dialect) (uses : List Use),
      (references dialect (writeUses uses)).map (·.specifier) = uses.map (·.literal.meaning) := by
  intro h
  have hRead := h .plain [.imports (.default sampleName) .double backspaceBody]
  revert hRead
  decide +kernel

end Sample

end ModuleAtlas.Source
