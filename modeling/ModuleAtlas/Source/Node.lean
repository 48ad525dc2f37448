import ModuleAtlas.Source.Declaration
import ModuleAtlas.Source.Scanner.Step
import ModuleAtlas.Source.SyntaxTree

/-!
# Reading source texts

Of a source text's syntax the reader tells apart only what can name a module: declarations with a
source and calls of `import`. Everything else is a node with its parts. What it has read it gives as
a syntax tree, in the kinds and fields of the grammar.

The reader stands for a parser of the whole grammar. Assumed of that parser are the kinds and
fields under which it puts declarations, calls, literals and their parts.
-/

namespace ModuleAtlas.Source

inductive Node where
  | importDeclaration (typeOnly : Bool) (source? : Option Literal) (children : List Node)
  /-- Without a source it is a local export. -/
  | exportDeclaration (typeOnly : Bool) (source? : Option Literal) (children : List Node)
  /-- A call of `import`, with its first argument when that is a literal. -/
  | importCall (argument? : Option Literal) (children : List Node)
  | other (children : List Node)

namespace Node

/-- What stands before a token, as far as its reading depends on it. -/
inductive Context where
  | plain
  | member
  | callee
  /-- So many more tokens belong to a declaration that was read. -/
  | inside (count : Nat)
deriving DecidableEq

def Context.after : Context → Token → Context
  | c, .lineBreak | c, .comment => c
  | .callee, .mark "?." | .callee, .group .angle _ => .callee
  | _, .mark "." | _, .mark "?." => .member
  | _, _ => .plain

def Context.behind (d : Declaration) (tokens : List Token) : Context :=
  .inside (tokens.length - d.rest.length)

def ofKeyword (w : String) (rest : List Token) : Node × Context :=
  if w = "import" then
    match Declaration.ofImport? rest with
    | some d => (importDeclaration d.typeOnly (some d.source) [], .behind d rest)
    | none => (other [], .callee)
  else if w = "export" then
    match Declaration.ofExport? rest with
    | some d => (exportDeclaration d.typeOnly (some d.source) [], .behind d rest)
    | none => (exportDeclaration false none [], .plain)
  else (other [], .plain)

mutual

def ofToken (c : Context) : Token → Node
  | .group .round items =>
    if c = .callee then importCall (Declaration.argument? items) (ofTokens .plain items)
    else other (ofTokens .plain items)
  | .group _ items => other (ofTokens .plain items)
  | _ => other []
termination_by structural t => t

def ofTokens : Context → List Token → List Node
  | _, [] => []
  | .inside (n + 1), _ :: rest => ofTokens (.inside n) rest
  | .member, .word _ :: rest => other [] :: ofTokens .plain rest
  | _, .word w :: rest => let (node, c) := ofKeyword w rest; node :: ofTokens c rest
  | c, t :: rest => ofToken c t :: ofTokens (c.after t) rest
termination_by structural _ ts => ts

end

def ofText (dialect : Dialect) (text : String) : List Node :=
  ofTokens .plain (Scanner.tokens dialect text.toList)

end Node

/-! ## The tree of a text -/

namespace SyntaxTree

def keyword (word : String) : SyntaxTree (Option String) := ⟨word, false, none, some word, []⟩

def inner (kind : String) (field? : Option String) (children : List (SyntaxTree (Option String))) :
    SyntaxTree (Option String) :=
  ⟨kind, true, field?, none, children⟩

def ofPiece : Piece → SyntaxTree (Option String)
  | .fragment text => ⟨"string_fragment", true, none, some (String.ofList text), []⟩
  | .escape text => ⟨"escape_sequence", true, none, some (String.ofList ('\\' :: text)), []⟩

def ofLiteral (field? : Option String) (l : Literal) : SyntaxTree (Option String) :=
  inner (if l.isTemplate then "template_string" else "string") field? (l.pieces.map ofPiece)

def head (word : String) (typeOnly : Bool) (source? : Option Literal) :
    List (SyntaxTree (Option String)) :=
  keyword word :: ((if typeOnly then [keyword "type"] else []) ++
    (source?.map (ofLiteral "source")).toList)

mutual

def ofNode : Node → SyntaxTree (Option String)
  | .importDeclaration typeOnly source? children =>
    inner "import_statement" none (head "import" typeOnly source? ++ ofNodes children)
  | .exportDeclaration typeOnly source? children =>
    inner "export_statement" none (head "export" typeOnly source? ++ ofNodes children)
  | .importCall argument? children =>
    inner "call_expression" none [inner "import" "function" [],
      inner "arguments" "arguments" ((argument?.map (ofLiteral none)).toList ++ ofNodes children)]
  | .other children => inner "expression" none (ofNodes children)
termination_by structural n => n

def ofNodes : List Node → List (SyntaxTree (Option String))
  | [] => []
  | n :: rest => ofNode n :: ofNodes rest
termination_by structural ns => ns

end

def ofText (dialect : Dialect) (text : String) : SyntaxTree (Option String) :=
  inner "program" none (ofNodes (Node.ofText dialect text))

end SyntaxTree

def references (dialect : Dialect) (text : String) : List Reference :=
  (SyntaxTree.ofText dialect text).references id

end ModuleAtlas.Source
