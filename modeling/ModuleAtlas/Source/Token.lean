import ModuleAtlas.Path.Basic
import ModuleAtlas.Source.Literal

/-!
# Tokens

A source text is read as a tree of tokens, in which closed brackets hold what stands between them.
Comments and line breaks stay among the tokens, because some declarations depend on them.

TypeScript is read in two dialects. The one with markup reads `<` in front of an operand as the
start of an element, the plain one as the start of a cast or of type parameters.
-/

namespace ModuleAtlas.Source

inductive Dialect where
  | plain
  | markup
deriving DecidableEq

namespace Dialect

def ofPath (p : Path) : Dialect :=
  match p.extension? with
  | some "tsx" | some "jsx" => markup
  | _ => plain

def name : Dialect → String
  | plain => "ts"
  | markup => "tsx"

end Dialect

inductive Bracket where
  | round
  | square
  | curly
  | angle
  | template
  | markup
deriving DecidableEq

inductive Token where
  | lineBreak
  | comment
  /-- A name, a keyword or a number. -/
  | word (text : String)
  /-- Punctuation, also a bracket that is never closed. -/
  | mark (text : String)
  | literal (l : Literal)
  | value
  | group (bracket : Bracket) (items : List Token)

namespace Token

/-- Line breaks and comments, which may stand between any two other tokens. -/
def isTrivia : Token → Bool
  | lineBreak | comment => true
  | _ => false

end Token

end ModuleAtlas.Source
