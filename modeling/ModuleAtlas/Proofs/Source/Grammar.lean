import ModuleAtlas.Proofs.Source.Preorder
import ModuleAtlas.Proofs.Source.Writing

/-!
# The trees of written lines

The shapes of the syntax trees that the grammar of the language gives to declarations, calls,
comments and strings. Whatever parser keeps to them, the search of its tree finds one reference for
each declaration that was written.
-/

namespace ModuleAtlas.Source

/-- What a grammar says of a tree. -/
inductive Shape where
  /-- A keyword or punctuation. -/
  | mark (word : String) (field? : Option String)
  /-- The characters between the quotes of a literal. -/
  | fragment (text : String)
  /-- A named node, whatever it has below it. -/
  | named (kind : String)
  | node (kind : String) (field? : Option String) (parts : List Shape)

namespace Shape

def isType : Shape → Bool
  | mark word _ => word == "type"
  | fragment _ | named _ | node _ _ _ => false

def field? : Shape → Option String
  | mark _ field? | node _ field? _ => field?
  | fragment _ | named _ => none

variable {σ : Type}

mutual

inductive Fits (read : σ → Option String) : Shape → SyntaxTree σ → Prop where
  | mark {word : String} {field? : Option String} {span : σ} :
      Fits read (.mark word field?) ⟨word, false, field?, span, []⟩
  | fragment {text : String} {span : σ} (h : read span = some text) :
      Fits read (.fragment text) ⟨"string_fragment", true, none, span, []⟩
  | named {kind : String} {span : σ} {children : List (SyntaxTree σ)} :
      Fits read (.named kind) ⟨kind, true, none, span, children⟩
  | node {kind : String} {field? : Option String} {parts : List Shape} {span : σ}
      {children : List (SyntaxTree σ)} (h : FitAll read parts children) :
      Fits read (.node kind field? parts) ⟨kind, true, field?, span, children⟩

inductive FitAll (read : σ → Option String) : List Shape → List (SyntaxTree σ) → Prop where
  | nil : FitAll read [] []
  | cons {s : Shape} {t : SyntaxTree σ} {shapes : List Shape} {trees : List (SyntaxTree σ)} :
      Fits read s t → FitAll read shapes trees → FitAll read (s :: shapes) (t :: trees)

end

variable {read : σ → Option String} {s : Shape} {t : SyntaxTree σ} {shapes : List Shape}
  {trees : List (SyntaxTree σ)}

theorem Fits.field?_eq (h : Fits read s t) : t.field? = s.field? := by
  cases h <;> rfl

theorem Fits.isType_eq (h : Fits read s t) : (! t.isNamed && t.kind == "type") = s.isType := by
  cases h <;> rfl

theorem FitAll.eq_nil (h : FitAll read [] trees) : trees = [] := by
  cases h
  rfl

theorem FitAll.uncons (h : FitAll read (s :: shapes) trees) :
    ∃ t rest, trees = t :: rest ∧ Fits read s t ∧ FitAll read shapes rest := by
  cases h with
  | cons hFirst hRest => exact ⟨_, _, rfl, hFirst, hRest⟩

theorem FitAll.singleton (h : FitAll read [s] trees) : ∃ t, trees = [t] ∧ Fits read s t := by
  obtain ⟨t, rest, rfl, hFits, hNone⟩ := h.uncons
  exact ⟨t, by rw [hNone.eq_nil], hFits⟩

theorem FitAll.find?_field (h : FitAll read shapes trees) {name : String}
    (hFound : shapes.find? (fun s => s.field? == some name) = some s) :
    ∃ t, trees.find? (fun t => t.field? == some name) = some t ∧ Fits read s t := by
  induction shapes generalizing trees with
  | nil => cases hFound
  | cons first shapes ih =>
    obtain ⟨t, rest, rfl, hFirst, hRest⟩ := h.uncons
    rw [List.find?_cons, hFirst.field?_eq]
    rw [List.find?_cons] at hFound
    cases hField : first.field? == some name with
    | true =>
      rw [hField] at hFound
      cases hFound
      exact ⟨t, rfl, hFirst⟩
    | false =>
      rw [hField] at hFound
      exact ih hRest hFound

theorem FitAll.any_type (h : FitAll read shapes trees) :
    trees.any (fun t => ! t.isNamed && t.kind == "type") = shapes.any isType := by
  induction shapes generalizing trees with
  | nil => rw [h.eq_nil, List.any_nil, List.any_nil]
  | cons first shapes ih =>
    obtain ⟨t, rest, rfl, hFirst, hRest⟩ := h.uncons
    rw [List.any_cons, List.any_cons, hFirst.isType_eq, ih hRest]

theorem FitAll.exists_append {back : List Shape} (h : FitAll read (shapes ++ back) trees) :
    ∃ ts us, trees = ts ++ us ∧ FitAll read shapes ts ∧ FitAll read back us := by
  induction shapes generalizing trees with
  | nil => exact ⟨[], trees, rfl, .nil, h⟩
  | cons first shapes ih =>
    obtain ⟨t, rest, rfl, hFirst, hRest⟩ := h.uncons
    obtain ⟨ts, us, rfl, hFront, hBack⟩ := ih hRest
    exact ⟨t :: ts, us, rfl, .cons hFirst hFront, hBack⟩

end Shape

/-! ## Productions -/

def Quote.kind : Quote → String
  | string _ => "string"
  | template => "template_string"

namespace Shape

def literal (quote : Quote) (text : String) (field? : Option String) : Shape :=
  .node quote.kind field? (.mark (.singleton quote.char) none ::
    ((if text = "" then [] else [.fragment text]) ++ [.mark (.singleton quote.char) none]))

def importCall (quote : Quote) (argument : String) (field? : Option String) : Shape :=
  .node "call_expression" field? [.node "import" "function" [],
    .node "arguments" "arguments" [.mark "(" none, literal quote argument none, .mark ")" none]]

end Shape

def ImportClause.shapes : ImportClause → List Shape
  | nothing => []
  | type _ => [.mark "type" none, .named "import_clause", .mark "from" none]
  | default _ | named _ | namedType _ | everything _ => [.named "import_clause", .mark "from" none]

def ExportClause.shapes : ExportClause → List Shape
  | named _ => [.named "export_clause", .mark "from" none]
  | all => [.mark "*" none, .mark "from" none]
  | type _ => [.mark "type" none, .named "export_clause", .mark "from" none]

def Line.shapes : Line → List Shape
  | imports clause quote source =>
    [.node "import_statement" none (.mark "import" none :: (clause.shapes ++
      [.literal (.string quote) source.text "source", .mark ";" none]))]
  | exports clause quote source =>
    [.node "export_statement" none (.mark "export" none :: (clause.shapes ++
      [.literal (.string quote) source.text "source", .mark ";" none]))]
  | call none quote argument =>
    [.node "expression_statement" none [.importCall quote argument.text none, .mark ";" none]]
  | call (some _) quote argument =>
    [.node "lexical_declaration" none [.mark "const" "kind",
      .node "variable_declarator" none [.node "identifier" "name" [], .mark "=" none,
        .importCall quote argument.text "value"], .mark ";" none]]
  | lineComment _ | blockComment _ => [.node "comment" none []]
  | string quote remark semicolon =>
    [.node "expression_statement" none (.literal (.string quote) remark.text none ::
      if semicolon then [.mark ";" none] else [])]
  | blank => []

/-- The shape of a text with a line of its own for each item. -/
def program (lines : List Line) : Shape := .node "program" none (lines.flatMap Line.shapes)

/-! ## The references of what fits -/

namespace Shape

variable {σ : Type} {read : σ → Option String} {t : SyntaxTree σ} {trees : List (SyntaxTree σ)}

open SyntaxTree (preorder preorder_eq preorder_leaf visit_other visit_call namedChildren
  childByField? contents? literalContents? stringLiteral? sourceSpecifier? dynamicSpecifier?
  hasSubstitution hasTypeKeyword)

/-- Whatever fits the shape has these references. -/
def Yields (read : σ → Option String) (s : Shape) (found : List Reference) : Prop :=
  ∀ t, Fits read s t → t.preorder read = found

theorem FitAll.flatMap_preorder {found : List (List Reference)} (h : FitAll read shapes trees)
    (hFound : List.Forall₂ (Yields read) shapes found) :
    trees.flatMap (preorder read) = found.flatten := by
  induction hFound generalizing trees with
  | nil =>
    rw [h.eq_nil]
    rfl
  | cons hFirst hLater ih =>
    obtain ⟨t, rest, rfl, hFits, hRest⟩ := h.uncons
    rw [List.flatMap_cons, List.flatten_cons, hFirst t hFits, ih hRest]

theorem yields_mark (word : String) (field? : Option String) :
    Yields read (.mark word field?) [] := by
  intro t h
  cases h
  exact preorder_leaf ..

theorem yields_fragment (text : String) : Yields read (.fragment text) [] := by
  intro t h
  cases h
  exact preorder_leaf ..

/-- A node that is neither a declaration nor a call has the references of its parts. -/
theorem Fits.preorder_node {kind : String} {field? : Option String} {parts : List Shape}
    (h : Fits read (.node kind field? parts) t)
    (hKind : kind ∉ ["import_statement", "export_statement", "call_expression"]) :
    FitAll read parts t.children ∧ t.preorder read = t.children.flatMap (preorder read) := by
  cases h with
  | node hParts =>
    refine ⟨hParts, ?_⟩
    rw [preorder_eq, SyntaxTree.reference?, visit_other hKind]
    rfl

theorem yields_node {kind : String} {field? : Option String} {parts : List Shape}
    {found : List (List Reference)}
    (hKind : kind ∉ ["import_statement", "export_statement", "call_expression"])
    (hFound : List.Forall₂ (Yields read) parts found) :
    Yields read (.node kind field? parts) found.flatten := by
  intro t h
  obtain ⟨hParts, hBelow⟩ := h.preorder_node hKind
  rw [hBelow, hParts.flatMap_preorder hFound]

theorem Fits.literal_parts {quote : Quote} {text : String} {field? : Option String}
    (h : Fits read (literal quote text field?) t) :
    t.kind = quote.kind ∧ t.hasSubstitution = false ∧ t.literalContents? read = some text := by
  cases h with
  | node hParts =>
    obtain ⟨opening, rest, rfl, hOpening, hRest⟩ := hParts.uncons
    cases hOpening
    refine ⟨rfl, ?_⟩
    by_cases hText : text = ""
    · rw [if_pos hText] at hRest
      obtain ⟨closing, rfl, hClosing⟩ := hRest.singleton
      cases hClosing
      simp [hasSubstitution, namedChildren, literalContents?, hText]
    · rw [if_neg hText] at hRest
      obtain ⟨inside, rest, rfl, hInside, hRest⟩ := hRest.uncons
      obtain ⟨closing, rfl, hClosing⟩ := hRest.singleton
      cases hClosing
      cases hInside with
      | fragment hRead =>
        simp [hasSubstitution, namedChildren, literalContents?, contents?, hRead]

theorem Fits.stringLiteral?_eq {quote : Quote} {text : String} {field? : Option String}
    (h : Fits read (literal quote text field?) t) : t.stringLiteral? read = some text := by
  obtain ⟨hKind, hSubstitution, hContents⟩ := h.literal_parts
  rw [stringLiteral?, hKind, hSubstitution, hContents]
  cases quote <;> rfl

theorem yields_literal (quote : Quote) (text : String) (field? : Option String) :
    Yields read (literal quote text field?) [] := by
  have hKind : quote.kind ∉ ["import_statement", "export_statement", "call_expression"] := by
    cases quote <;> simp [Quote.kind]
  have hQuote : Yields read (.mark (.singleton quote.char) none) [] := yields_mark _ _
  rw [literal]
  split
  · exact yields_node hKind (.cons hQuote (.cons hQuote .nil))
  · exact yields_node hKind (.cons hQuote (.cons (yields_fragment text) (.cons hQuote .nil)))

/-- The parts of a call between its parentheses. -/
theorem yields_arguments (quote : Quote) (argument : String) :
    Yields read (.node "arguments" "arguments"
      [.mark "(" none, literal quote argument none, .mark ")" none]) [] :=
  yields_node (by decide)
    (.cons (yields_mark _ _) (.cons (yields_literal _ _ _) (.cons (yields_mark _ _) .nil)))

theorem Fits.first_argument {quote : Quote} {argument : String}
    (h : Fits read (.node "arguments" "arguments"
      [.mark "(" none, literal quote argument none, .mark ")" none]) t) :
    ∃ first, t.namedChildren.head? = some first ∧ first.stringLiteral? read = some argument := by
  cases h with
  | node hParts =>
    obtain ⟨opening, rest, rfl, hOpening, hRest⟩ := hParts.uncons
    obtain ⟨first, rest, rfl, hFirst, -⟩ := hRest.uncons
    have hNamed : first.isNamed = true := by
      cases hFirst
      rfl
    cases hOpening
    exact ⟨first, by simp [namedChildren, hNamed], hFirst.stringLiteral?_eq⟩

theorem yields_importCall (quote : Quote) (argument : String) (field? : Option String) :
    Yields read (importCall quote argument field?) [⟨argument, .dynamic, false⟩] := by
  intro t h
  cases h with
  | @node _ _ _ span _ hParts =>
    have hInside : List.Forall₂ (Yields read) [.node "import" "function" [],
        .node "arguments" "arguments"
          [.mark "(" none, literal quote argument none, .mark ")" none]] [[], []] :=
      .cons (yields_node (by decide) .nil) (.cons (yields_arguments _ _) .nil)
    have hBelow := hParts.flatMap_preorder hInside
    obtain ⟨function, rest, rfl, hFunction, hRest⟩ := hParts.uncons
    obtain ⟨arguments, rfl, hArguments⟩ := hRest.singleton
    obtain ⟨first, hFirst, hValue⟩ := hArguments.first_argument
    have hField : arguments.field? = some "arguments" := hArguments.field?_eq
    have hSpecifier : dynamicSpecifier? read ⟨"call_expression", true, field?, span,
        [function, arguments]⟩ = some argument := by
      cases hFunction
      simp [dynamicSpecifier?, childByField?, hField, hFirst, hValue]
    rw [preorder_eq, SyntaxTree.reference?, visit_call rfl, hSpecifier, hBelow]
    rfl

/-- A declaration makes one reference: its clause has neither a source of its own nor, unless it
should, a keyword `type`. -/
theorem Fits.visit_declaration {kind word source : String} {clause : List Shape}
    {quote : StringQuote} (h : Fits read (.node kind none (.mark word none :: (clause ++
      [literal (.string quote) source "source", .mark ";" none]))) t)
    (hClause : ∀ s ∈ clause, s.field? = none) (hWord : word ≠ "type") :
    t.sourceSpecifier? read = some source ∧
      t.hasTypeKeyword = clause.any isType := by
  cases h with
  | node hParts =>
    constructor
    · have hNone : clause.find? (fun s => s.field? == some "source") = none := by
        rw [List.find?_eq_none]
        intro s hs
        simp [hClause s hs]
      have hSource : (Shape.mark word none :: (clause ++ [literal (.string quote) source "source",
          .mark ";" none])).find? (fun s => s.field? == some "source") =
          some (literal (.string quote) source "source") := by
        rw [List.find?_cons_of_neg (by simp [field?]), List.find?_append, hNone]
        rfl
      obtain ⟨t, hFound, hFits⟩ := hParts.find?_field hSource
      rw [sourceSpecifier?, childByField?, hFound]
      exact hFits.stringLiteral?_eq
    · rw [hasTypeKeyword, hParts.any_type]
      simp [isType, literal, hWord]

end Shape

open Shape

variable {σ : Type} {read : σ → Option String} {trees : List (SyntaxTree σ)}

theorem ImportClause.shapes_eq (clause : ImportClause) :
    (∀ s ∈ clause.shapes, s.field? = none) ∧ clause.shapes.any isType = clause.typeOnly := by
  cases clause <;> simp [shapes, typeOnly, isType, field?]

theorem ExportClause.shapes_eq (clause : ExportClause) :
    (∀ s ∈ clause.shapes, s.field? = none) ∧ clause.shapes.any isType = clause.typeOnly := by
  cases clause <;> simp [shapes, typeOnly, isType, field?]

theorem yields_import (clause : ImportClause) (quote : StringQuote) (source : String) :
    Yields read (.node "import_statement" none (.mark "import" none :: (clause.shapes ++
      [.literal (.string quote) source "source", .mark ";" none])))
      [⟨source, .static, clause.typeOnly⟩] := by
  intro t h
  obtain ⟨hSource, hType⟩ := h.visit_declaration clause.shapes_eq.1 (by decide)
  have hKind : t.kind = "import_statement" := by
    cases h
    rfl
  rw [SyntaxTree.preorder_eq, SyntaxTree.reference?, SyntaxTree.visit_import hKind, hSource, hType,
    clause.shapes_eq.2]
  rfl

theorem yields_export (clause : ExportClause) (quote : StringQuote) (source : String) :
    Yields read (.node "export_statement" none (.mark "export" none :: (clause.shapes ++
      [.literal (.string quote) source "source", .mark ";" none])))
      [⟨source, .reExport, clause.typeOnly⟩] := by
  intro t h
  obtain ⟨hSource, hType⟩ := h.visit_declaration clause.shapes_eq.1 (by decide)
  have hKind : t.kind = "export_statement" := by
    cases h
    rfl
  rw [SyntaxTree.preorder_eq, SyntaxTree.reference?, SyntaxTree.visit_reExport hKind hSource, hType,
    clause.shapes_eq.2]
  rfl

/-- The shapes of a line yield its reference, if it has one. -/
theorem Line.exists_yields (l : Line) : ∃ found, List.Forall₂ (Yields read) l.shapes found ∧
    found.flatten = l.reference?.toList := by
  cases l with
  | imports clause quote source =>
    exact ⟨_, .cons (yields_import clause quote source.text) .nil, rfl⟩
  | exports clause quote source =>
    exact ⟨_, .cons (yields_export clause quote source.text) .nil, rfl⟩
  | call name? quote argument =>
    have hCall : ∀ field? : Option String, Yields read (importCall quote argument.text field?)
        [⟨argument.text, .dynamic, false⟩] := yields_importCall quote argument.text
    cases name? with
    | none =>
      exact ⟨_, .cons (yields_node (by decide)
        (.cons (hCall none) (.cons (yields_mark _ _) .nil))) .nil, rfl⟩
    | some v =>
      have hName : Yields read (.node "identifier" "name" []) [] := yields_node (by decide) .nil
      have hDeclarator : Yields read (.node "variable_declarator" none
          [.node "identifier" "name" [], .mark "=" none, .importCall quote argument.text "value"])
          [⟨argument.text, .dynamic, false⟩] :=
        yields_node (by decide) (.cons hName (.cons (yields_mark _ _) (.cons (hCall _) .nil)))
      exact ⟨_, .cons (yields_node (by decide)
        (.cons (yields_mark _ _) (.cons hDeclarator (.cons (yields_mark _ _) .nil)))) .nil, rfl⟩
  | lineComment remark | blockComment remark =>
    exact ⟨_, .cons (yields_node (by decide) .nil) .nil, rfl⟩
  | string quote remark semicolon =>
    have hLiteral : Yields read (literal (.string quote) remark.text none) [] :=
      yields_literal _ _ _
    cases semicolon with
    | false => exact ⟨_, .cons (yields_node (by decide) (.cons hLiteral .nil)) .nil, rfl⟩
    | true =>
      exact ⟨_, .cons (yields_node (by decide)
        (.cons hLiteral (.cons (yields_mark _ _) .nil))) .nil, rfl⟩
  | blank => exact ⟨[], .nil, rfl⟩

theorem Line.flatMap_preorder (l : Line) (h : FitAll read l.shapes trees) :
    trees.flatMap (SyntaxTree.preorder read) = l.reference?.toList := by
  obtain ⟨found, hYields, hFound⟩ := l.exists_yields
  rw [h.flatMap_preorder hYields, hFound]

theorem flatMap_preorder_of_fitAll {lines : List Line}
    (h : FitAll read (lines.flatMap Line.shapes) trees) :
    trees.flatMap (SyntaxTree.preorder read) = lines.filterMap Line.reference? := by
  induction lines generalizing trees with
  | nil => rw [h.eq_nil, List.flatMap_nil, List.filterMap_nil]
  | cons l lines ih =>
    rw [List.flatMap_cons] at h
    obtain ⟨ts, us, rfl, hLine, hLines⟩ := h.exists_append
    rw [List.flatMap_append, l.flatMap_preorder hLine, ih hLines, List.filterMap_cons]
    cases l.reference? <;> rfl

/-- Whatever parser keeps to the grammar on a text written line by line, the search of its tree finds
the references of the lines. -/
theorem references_of_fits {lines : List Line} {t : SyntaxTree σ}
    (h : Fits read (program lines) t) : t.references read = lines.filterMap Line.reference? := by
  obtain ⟨hParts, hBelow⟩ := h.preorder_node (by decide)
  rw [SyntaxTree.references_eq_preorder, hBelow, flatMap_preorder_of_fitAll hParts]

end ModuleAtlas.Source
