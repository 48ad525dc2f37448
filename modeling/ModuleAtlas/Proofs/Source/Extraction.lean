import ModuleAtlas.Proofs.Source.Grammar
import ModuleAtlas.Proofs.Source.Nodes

/-!
# Extraction inverts writing

The references found in a text that was written line by line are those that its lines make, in the
order of the lines.
-/

namespace ModuleAtlas.Source

namespace Node

/-! ## Declarations among other tokens -/

theorem ofTokens_inside (tokens rest : List Token) :
    ofTokens (.inside tokens.length) (tokens ++ rest) = ofTokens (.inside 0) rest := by
  induction tokens with
  | nil => rfl
  | cons t tokens ih => exact ih

theorem ofTokens_word (w : String) (rest : List Token) :
    ofTokens .plain (.word w :: rest) =
      (ofKeyword w rest).1 :: ofTokens (ofKeyword w rest).2 rest := rfl

theorem behind_eq (typeOnly : Bool) (source : Literal) (ts rest : List Token) :
    Context.behind ⟨typeOnly, source, rest⟩ (ts ++ rest) = .inside ts.length := by
  simp [Context.behind]

/-- Whatever follows, the tokens contribute the references and nothing is left open behind them. -/
def Yields (tokens : List Token) (refs : List Reference) : Prop :=
  ∀ rest, allReferences (ofTokens .plain (tokens ++ rest)) =
    refs ++ allReferences (ofTokens .plain rest)

namespace Yields

theorem nil : Yields [] [] := fun _ => rfl

theorem append {ts us : List Token} {refs refs' : List Reference} (h : Yields ts refs)
    (h' : Yields us refs') : Yields (ts ++ us) (refs ++ refs') := by
  intro rest
  rw [List.append_assoc, List.append_assoc, h, h']

theorem lineBreak : Yields [.lineBreak] [] := fun _ => rfl

theorem comment : Yields [.comment] [] := fun _ => rfl

theorem literal (l : Literal) : Yields [.literal l] [] := fun _ => rfl

theorem semicolon : Yields [.mark ";"] [] := fun _ => rfl

theorem equals : Yields [.mark "="] [] := fun _ => rfl

theorem word {w : String} (hImport : w ≠ "import") (hExport : w ≠ "export") :
    Yields [.word w] [] := by
  intro rest
  simp [ofTokens, ofKeyword, hImport, hExport, allReferences, references]

/-- The tokens of a declaration up to its semicolon are not read again. -/
theorem declaration {w : String} {ts : List Token} (node : Node)
    (h : ∀ rest, ofKeyword w (ts ++ .mark ";" :: rest) = (node, .inside ts.length)) :
    Yields (.word w :: (ts ++ [.mark ";"])) node.references := by
  intro rest
  rw [List.cons_append, List.append_assoc, List.singleton_append, ofTokens_word, h,
    ofTokens_inside]
  rfl

theorem importDeclaration (ts : List Token) {typeOnly : Bool} {source : Literal}
    (h : ∀ rest, Declaration.ofImport? (ts ++ .mark ";" :: rest) =
      some ⟨typeOnly, source, .mark ";" :: rest⟩) :
    Yields (.word "import" :: (ts ++ [.mark ";"])) [⟨source.value, .static, typeOnly⟩] := by
  apply declaration (.importDeclaration typeOnly (some source) [])
  intro rest
  rw [ofKeyword, if_pos rfl, h]
  exact congrArg _ (behind_eq ..)

theorem exportDeclaration (ts : List Token) {typeOnly : Bool} {source : Literal}
    (h : ∀ rest, Declaration.ofExport? (ts ++ .mark ";" :: rest) =
      some ⟨typeOnly, source, .mark ";" :: rest⟩) :
    Yields (.word "export" :: (ts ++ [.mark ";"])) [⟨source.value, .reExport, typeOnly⟩] := by
  apply declaration (.exportDeclaration typeOnly (some source) [])
  intro rest
  rw [ofKeyword, if_neg (by decide), if_pos rfl, h]
  exact congrArg _ (behind_eq ..)

theorem importCall (l : Literal) :
    Yields [.word "import", .group .round [.literal l]] [⟨l.value, .dynamic, false⟩] :=
  fun _ => rfl

theorem intercalate {α : Type} {tokens : α → List Token} {refs : α → List Reference}
    (items : List α) (h : ∀ i ∈ items, Yields (tokens i) (refs i)) :
    Yields ([.lineBreak].intercalate (items.map tokens)) (items.flatMap refs) := by
  induction items with
  | nil => exact nil
  | cons i items ih =>
    rw [List.forall_mem_cons] at h
    rw [List.flatMap_cons]
    cases items with
    | nil => simpa using h.1
    | cons j items =>
      rw [List.map_cons, List.map_cons, List.intercalate_cons_cons, ← List.map_cons]
      simpa using (h.1.append lineBreak).append (ih h.2)

end Yields

end Node

/-! ## The lines -/

theorem isTemplate_literalOf (quote : StringQuote) (text : String) :
    (Scanner.literalOf quote.char text).isTemplate = false := by
  cases quote <;> rfl

theorem Name.ne_of_reserved (n : Name) {w : String} (hw : w ∈ reservedWords) : n.text ≠ w := by
  intro h
  exact n.free (h ▸ hw)

theorem Name.startsStatement_eq (n : Name) : Declaration.startsStatement n.text = false := by
  have hFree := n.free
  simp only [reservedWords, List.mem_cons, not_or] at hFree
  simp [Declaration.startsStatement, hFree]

section Clauses

open Declaration

theorem importSource?_word {w : String} (hStatement : startsStatement w = false)
    (hFrom : w ≠ "from") (rest : List Token) :
    importSource? (.word w :: rest) = importSource? rest := by
  rw [importSource?, hStatement, beq_eq_false_iff_ne.mpr hFrom]
  rfl

theorem importSource?_name (n : Name) (rest : List Token) :
    importSource? (.word n.text :: rest) = importSource? rest :=
  importSource?_word n.startsStatement_eq (n.ne_of_reserved (by decide)) rest

theorem ofImport?_name (n : Name) (rest : List Token) :
    ofImport? (.word n.text :: rest) =
      (importSource? rest).map fun found => ⟨false, found.1, found.2⟩ := by
  have hType : n.text ≠ "type" := n.ne_of_reserved (by decide)
  have hClause := importSource?_name n rest
  simp [ofImport?, string?, significant, Token.isTrivia, hType, hClause]

variable {source : Literal} (hSource : source.isTemplate = false)
include hSource

theorem string?_literal (rest : List Token) :
    string? (.literal source :: rest) = some (source, rest) := by
  simp [string?, significant, Token.isTrivia, hSource]

theorem importSource?_from (rest : List Token) :
    importSource? (.word "from" :: .literal source :: rest) = some (source, rest) := by
  rw [importSource?, if_neg (by decide), if_pos (by decide), string?_literal hSource]
  rfl

theorem ImportClause.ofImport?_tokens (clause : ImportClause) (rest : List Token) :
    ofImport? (clause.tokens ++ .literal source :: rest) = some ⟨clause.typeOnly, source, rest⟩ := by
  have hFrom := importSource?_from hSource rest
  cases clause with
  | nothing =>
    change ((string? (.literal source :: rest)).or _).map _ = _
    rw [string?_literal hSource]
    rfl
  | default d =>
    change ofImport? (.word d.text :: .word "from" :: .literal source :: rest) = _
    rw [ofImport?_name, hFrom]
    rfl
  | named a | namedType t | type t =>
    change (importSource? (.word "from" :: .literal source :: rest)).map _ = _
    rw [hFrom]
    rfl
  | everything ns =>
    change (importSource? (.word "as" :: .word ns.text :: _)).map _ = _
    rw [importSource?_word (by decide) (by decide), importSource?_name]
    change (importSource? (.word "from" :: .literal source :: rest)).map _ = _
    rw [hFrom]
    rfl

theorem exportSource?_literal (rest : List Token) :
    exportSource? (.literal source :: .mark ";" :: rest) = some (source, .mark ";" :: rest) := by
  rw [exportSource?, string?_literal hSource]
  rfl

theorem ExportClause.ofExport?_tokens (clause : ExportClause) (rest : List Token) :
    ofExport? (clause.tokens ++ .literal source :: .mark ";" :: rest) =
      some ⟨clause.typeOnly, source, .mark ";" :: rest⟩ := by
  have hFrom := exportSource?_literal hSource rest
  cases clause <;>
  · change (exportSource? (.literal source :: .mark ";" :: rest)).map _ = _
    rw [hFrom]
    rfl

end Clauses

section Declarations

open Node (Yields)

theorem ImportClause.yields (clause : ImportClause) {source : Literal}
    (hSource : source.isTemplate = false) :
    Yields (.word "import" :: (clause.tokens ++ [.literal source, .mark ";"]))
      [⟨source.value, .static, clause.typeOnly⟩] := by
  have hDeclared := Yields.importDeclaration (clause.tokens ++ [.literal source]) fun rest => by
    rw [List.append_assoc]
    exact clause.ofImport?_tokens hSource (.mark ";" :: rest)
  rwa [List.append_assoc] at hDeclared

theorem ExportClause.yields (clause : ExportClause) {source : Literal}
    (hSource : source.isTemplate = false) :
    Yields (.word "export" :: (clause.tokens ++ [.literal source, .mark ";"]))
      [⟨source.value, .reExport, clause.typeOnly⟩] := by
  have hDeclared := Yields.exportDeclaration (clause.tokens ++ [.literal source]) fun rest => by
    rw [List.append_assoc]
    exact clause.ofExport?_tokens hSource rest
  rwa [List.append_assoc] at hDeclared

theorem yields_call (argument : Literal) :
    Yields [.word "import", .group .round [.literal argument], .mark ";"]
      [⟨argument.value, .dynamic, false⟩] :=
  (Yields.importCall argument).append .semicolon

theorem yields_bound_call (v : Name) (argument : Literal) :
    Yields [.word "const", .word v.text, .mark "=", .word "import",
      .group .round [.literal argument], .mark ";"] [⟨argument.value, .dynamic, false⟩] := by
  have hConst := Yields.word (w := "const") (by decide) (by decide)
  have hName := Yields.word (v.ne_of_reserved (w := "import") (by decide))
    (v.ne_of_reserved (w := "export") (by decide))
  exact hConst.append (hName.append (Yields.equals.append (yields_call argument)))

end Declarations

theorem Line.yields (l : Line) : Node.Yields l.tokens l.reference?.toList := by
  cases l with
  | imports clause quote source =>
    have hDeclared := clause.yields (isTemplate_literalOf quote source.text)
    rwa [Scanner.value_literalOf] at hDeclared
  | exports clause quote source =>
    have hDeclared := clause.yields (isTemplate_literalOf quote source.text)
    rwa [Scanner.value_literalOf] at hDeclared
  | call name? quote argument =>
    cases name? with
    | none =>
      have hCall := yields_call (Scanner.literalOf quote.char argument.text)
      rwa [Scanner.value_literalOf] at hCall
    | some v =>
      have hCall := yields_bound_call v (Scanner.literalOf quote.char argument.text)
      rwa [Scanner.value_literalOf] at hCall
  | lineComment remark => exact .comment
  | blockComment remark => exact .comment
  | string quote remark semicolon =>
    cases semicolon with
    | false => exact .literal _
    | true => exact (Node.Yields.literal _).append .semicolon
  | blank => exact .nil

theorem Line.head?_text_ne (l : Line) : l.text.toList.head? ≠ some '#' := by
  cases l with
  | string quote remark semicolon => cases quote <;> simp [Line.text, enclose, StringQuote.char]
  | call name? quote argument => cases name? <;> simp [Line.text]
  | _ => simp [Line.text]

theorem references_write (dialect : Dialect) (lines : List Line)
    (hLines : ∀ l ∈ lines, l.endsAtLineBreak = true) :
    references dialect (write lines) = lines.filterMap Line.reference? := by
  have hTokens := Scanner.tokens_lines dialect (fun l hl => Line.scans l (hLines l hl))
    fun l _ => l.head?_text_ne
  have hYields := Node.Yields.intercalate lines fun l _ => l.yields
  rw [references_eq_allReferences, Node.ofText, write, hTokens]
  have hEnd := hYields []
  rw [List.append_nil] at hEnd
  rw [hEnd, List.filterMap_eq_flatMap_toList]
  exact List.append_nil _

/-- Reading inverts writing: one reference for each declaration, in the order of the lines, and none
for comments and strings, whatever they hold. So it is with any parser that keeps to the grammar, and
with the reader of this library. Only a line comment must not hold a line separator, which would end
it. -/
theorem extraction_inverts_writing (parse : Dialect → String → SyntaxTree Range)
    (dialect : Dialect) (lines : List Line)
    (hLines : ∀ l ∈ lines, l.endsAtLineBreak = true)
    (hParse : Shape.Fits (Range.text? (write lines)) (program lines) (parse dialect (write lines))) :
    (parse dialect (write lines)).references (Range.text? (write lines)) =
        lines.filterMap Line.reference? ∧
      references dialect (write lines) = lines.filterMap Line.reference? :=
  ⟨references_of_fits hParse, references_write dialect lines hLines⟩

section Sample

def sampleName : Name := ⟨"D", by decide, by decide, by decide⟩

def samplePackage : Specifier := ⟨"react", by decide, by decide⟩

def sampleModule : Specifier := ⟨"./a$b", by decide, by decide⟩

/-- Declarations between lines that only look like some. -/
def sampleLines : List Line :=
  [.lineComment ⟨" import \"x\";", by decide⟩,
    .imports (.default sampleName) .double samplePackage,
    .string .single ⟨⟨"import(`x`);", by decide⟩, by decide⟩ false,
    .call (some sampleName) .template sampleModule,
    .blockComment ⟨⟨" export * from \"x\"; /*", by decide⟩, by decide⟩,
    .exports (.type sampleName) .single sampleModule]

example : write sampleLines =
    "// import \"x\";\n" ++ "import D from \"react\";\n" ++ "'import(`x`);'\n" ++
      "const D = import(`./a$b`);\n" ++ "/* export * from \"x\"; /**/\n" ++
      "export type \x7b D \x7d from './a$b';" := by
  decide

section Tree

def leafAt (kind : String) (isNamed : Bool) (field? : Option String) (start stop : Nat) :
    SyntaxTree Range :=
  ⟨kind, isNamed, field?, ⟨start, stop⟩, []⟩

def markAt (word : String) (start : Nat) : SyntaxTree Range :=
  leafAt word false none start (start + word.length)

def innerAt (kind : String) (field? : Option String) (start stop : Nat)
    (children : List (SyntaxTree Range)) : SyntaxTree Range :=
  ⟨kind, true, field?, ⟨start, stop⟩, children⟩

def literalAt (kind quote : String) (field? : Option String) (start stop : Nat) :
    SyntaxTree Range :=
  innerAt kind field? start stop [markAt quote start,
    leafAt "string_fragment" true none (start + 1) (stop - 1), markAt quote (stop - 1)]

/-- The tree of the sample, node by node. -/
def sampleTree : SyntaxTree Range :=
  innerAt "program" none 0 138
    [leafAt "comment" true none 0 14,
      innerAt "import_statement" none 15 37
        [markAt "import" 15,
          innerAt "import_clause" none 22 23 [leafAt "identifier" true none 22 23],
          markAt "from" 24, literalAt "string" "\"" "source" 29 36, markAt ";" 36],
      innerAt "expression_statement" none 38 52 [literalAt "string" "'" none 38 52],
      innerAt "lexical_declaration" none 53 79
        [leafAt "const" false "kind" 53 58,
          innerAt "variable_declarator" none 59 78
            [leafAt "identifier" true "name" 59 60, markAt "=" 61,
              innerAt "call_expression" "value" 63 78
                [leafAt "import" true "function" 63 69,
                  innerAt "arguments" "arguments" 69 78
                    [markAt "(" 69, literalAt "template_string" "`" none 70 77, markAt ")" 77]]],
          markAt ";" 78],
      leafAt "comment" true none 80 106,
      innerAt "export_statement" none 107 138
        [markAt "export" 107, markAt "type" 114,
          innerAt "export_clause" none 119 124
            [markAt "\x7b" 119,
              innerAt "export_specifier" none 121 122 [leafAt "identifier" true "name" 121 122],
              markAt "\x7d" 123],
          markAt "from" 125, literalAt "string" "'" "source" 130 137, markAt ";" 137]]

section Fits

open Shape

variable {read : Range → Option String} {field? : Option String} {start stop : Nat}

theorem fits_literalAt (quote : Quote) {text : String} (hText : text ≠ "")
    (hRead : read ⟨start + 1, stop - 1⟩ = some text) :
    Fits read (literal quote text field?)
      (literalAt quote.kind (.singleton quote.char) field? start stop) := by
  rw [literal, if_neg hText]
  exact .node (.cons .mark (.cons (.fragment hRead) (.cons .mark .nil)))

theorem fits_sampleTree :
    Fits (Range.text? (write sampleLines)) (program sampleLines) sampleTree := by
  have hPackage : Range.text? (write sampleLines) ⟨30, 35⟩ = some "react" := by decide +kernel
  have hRemark : Range.text? (write sampleLines) ⟨39, 51⟩ = some "import(`x`);" := by
    decide +kernel
  have hArgument : Range.text? (write sampleLines) ⟨71, 76⟩ = some "./a$b" := by decide +kernel
  have hModule : Range.text? (write sampleLines) ⟨131, 136⟩ = some "./a$b" := by decide +kernel
  have hCall : Fits (Range.text? (write sampleLines)) (literal .template "./a$b" none)
      (literalAt "template_string" "`" none 70 77) :=
    fits_literalAt .template (by decide) hArgument
  refine .node (.cons (.node .nil) (.cons (.node ?_) (.cons (.node ?_) (.cons (.node ?_)
    (.cons (.node .nil) (.cons (.node ?_) .nil))))))
  · exact .cons .mark (.cons .named (.cons .mark
      (.cons (fits_literalAt (.string .double) (by decide) hPackage) (.cons .mark .nil))))
  · exact .cons (fits_literalAt (.string .single) (by decide) hRemark) .nil
  · refine .cons .mark (.cons (.node (.cons (.node .nil) (.cons .mark (.cons (.node ?_) .nil))))
      (.cons .mark .nil))
    exact .cons (.node .nil)
      (.cons (.node (.cons .mark (.cons hCall (.cons .mark .nil)))) .nil)
  · exact .cons .mark (.cons .mark (.cons .named (.cons .mark
      (.cons (fits_literalAt (.string .single) (by decide) hModule) (.cons .mark .nil)))))

end Fits

end Tree

theorem sample_read_back :
    (∀ l ∈ sampleLines, l.endsAtLineBreak = true) ∧
      Shape.Fits (Range.text? (write sampleLines)) (program sampleLines) sampleTree ∧
      let found : List Reference :=
        [⟨"react", .static, false⟩, ⟨"./a$b", .dynamic, false⟩, ⟨"./a$b", .reExport, true⟩]
      sampleTree.references (Range.text? (write sampleLines)) = found ∧
        references .markup (write sampleLines) = found :=
  ⟨by decide, fits_sampleTree,
    extraction_inverts_writing (fun _ _ => sampleTree) .markup sampleLines (by decide)
      fits_sampleTree⟩

/-- A line separator ends the comment, so the import behind it is one. -/
theorem separator_ends_comment :
    ¬ ∀ (dialect : Dialect) (lines : List Line),
      references dialect (write lines) = lines.filterMap Line.reference? := by
  intro h
  have hRead : references .plain (write [.lineComment ⟨" see\u2028import \"x\";", by decide⟩]) =
      [⟨"x", .static, false⟩] := by
    decide +kernel
  rw [h] at hRead
  cases hRead

end Sample

end ModuleAtlas.Source
