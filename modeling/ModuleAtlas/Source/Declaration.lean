import ModuleAtlas.Source.Token

/-!
# Declarations with a source

The source of an import or export declaration is the string behind its keyword `from`. Reading one
gives the source, whether the declaration is erased with the types, and the tokens behind it.

Assumed of the grammar: the clause of an import goes on to its string unless a keyword starts
another statement, `type` is a keyword only where no name can stand, and an export has no source
behind a line break or in front of attributes.
-/

namespace ModuleAtlas.Source

structure Declaration where
  typeOnly : Bool
  source : Literal
  rest : List Token

namespace Declaration

def significant (tokens : List Token) : List Token := tokens.dropWhile Token.isTrivia

def string? (tokens : List Token) : Option (Literal × List Token) :=
  match significant tokens with
  | .literal l :: rest => if l.isTemplate then none else some (l, rest)
  | _ => none

/-- Keywords that start a statement of their own, so that a clause must have ended before. -/
def startsStatement (w : String) : Bool :=
  ["import", "export", "const", "let", "var", "function", "class", "return", "if", "for", "while",
    "do", "switch", "throw", "try", "new"].contains w

def importSource? : List Token → Option (Literal × List Token)
  | [] => none
  | .lineBreak :: rest | .comment :: rest | .mark "," :: rest | .mark "*" :: rest
  | .group .curly _ :: rest => importSource? rest
  | .word w :: rest =>
    if startsStatement w then none
    else if w == "from" then (string? rest).or (importSource? rest)
    else importSource? rest
  | _ => none

/-- Whether a keyword `type` says that the whole import is erased, rather than being a name. -/
def isTypeKeyword (behind : List Token) : Bool :=
  match significant behind with
  | .mark "*" :: _ | .group .curly _ :: _ | .literal _ :: _ => true
  | .word w :: rest => w != "from" || (string? rest).isNone
  | _ => false

def ofImport? (tokens : List Token) : Option Declaration :=
  let (typeOnly, clause) := match significant tokens with
    | .word "type" :: rest => if isTypeKeyword rest then (true, rest) else (false, tokens)
    | _ => (false, tokens)
  ((string? clause).or (importSource? clause)).map fun (source, rest) => ⟨typeOnly, source, rest⟩

/-- The source behind a keyword `from`, unless attributes follow on the same line. -/
def exportSource? (tokens : List Token) : Option (Literal × List Token) :=
  match string? tokens with
  | none => none
  | some (source, rest) =>
    match rest.dropWhile fun t => t matches .comment with
    | .word "with" :: _ | .word "assert" :: _ => none
    | _ => some (source, rest)

def namespaceSource? (tokens : List Token) : Option (Literal × List Token) :=
  match significant tokens with
  | .word "from" :: rest => exportSource? rest
  | .word "as" :: rest =>
    match significant rest with
    | .word _ :: rest | .literal _ :: rest =>
      match significant rest with
      | .word "from" :: rest => exportSource? rest
      | _ => none
    | _ => none
  | _ => none

/-- The source of exported names. A line break before `from` ends the declaration. -/
def namesSource? (tokens : List Token) : Option (Literal × List Token) :=
  match tokens.dropWhile fun t => t matches .comment with
  | .word "from" :: rest => exportSource? rest
  | _ => none

def ofExport? (tokens : List Token) : Option Declaration :=
  let declare (typeOnly : Bool) (found : Literal × List Token) : Declaration :=
    ⟨typeOnly, found.1, found.2⟩
  match significant tokens with
  | .mark "*" :: rest => (namespaceSource? rest).map (declare false)
  | .group .curly _ :: rest => (namesSource? rest).map (declare false)
  | .word "type" :: rest =>
    match significant rest with
    | .mark "*" :: rest => (namespaceSource? rest).map (declare false)
    | .group .curly _ :: rest => (namesSource? rest).map (declare true)
    | _ => none
  | _ => none

/-- The argument of a call, when it is a literal that stands first. A comment counts as first. -/
def argument? (tokens : List Token) : Option Literal :=
  match tokens.dropWhile fun t => t matches .lineBreak with
  | .literal l :: rest =>
    match significant rest with
    | [] | .mark "," :: _ => some l
    | _ => none
  | _ => none

end Declaration

end ModuleAtlas.Source
