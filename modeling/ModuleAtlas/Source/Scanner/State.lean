import ModuleAtlas.Source.Token
import ModuleAtlas.Text

/-!
# The state of a scan

A scan goes through a text character by character. It knows the token being read, the groups that
are open, and whether an operand or an operator is due, which tells a regular expression from a
division and a tag from a comparison.

The scan stands for the lexical part of the grammar. Assumed of the grammar is where comments,
strings, templates, regular expressions and tags begin and end, that an open group which never
closes is dissolved into the text around it, and that a string which its line does not close is no
literal. Results about every syntax tree, or about a parser that is a parameter, do not rest on
this.
-/

namespace ModuleAtlas.Source.Scanner

/-! ## Characters -/

def isSpace (c : Char) : Bool :=
  Text.isBlank c || c == '\uFEFF' || c == '\u200B' || c == '\u2060'

/-- Characters of names and numbers; a backslash starts an escape in a name. -/
def isWordChar (c : Char) : Bool :=
  c.isAlphanum || c == '_' || c == '$' || c == '#' || c == '\\' || (128 ≤ c.toNat && ! isSpace c)

def isNumber (read : List Char) : Bool := read.getLast?.any Char.isDigit

def inNameEscape (read : List Char) (c : Char) : Bool :=
  match read with
  | 'u' :: '\\' :: _ => c == '{'
  | _ => c == '}' && read.contains '{'

/-- Whether a character continues a word, whose characters are given last one first. -/
def continuesWord (inTag : Bool) (read : List Char) (c : Char) : Bool :=
  isWordChar c || (c == '.' && isNumber read) || inNameEscape read c
    || (inTag && (c == '-' || c == ':' || c == '.'))

def continuesMark (read : String) (c : Char) : Bool :=
  match read, c with
  | ".", '.' | "..", '.' | "?", '.' | "=", '>' | "+", '+' | "-", '-' | "!", '=' => true
  | _, _ => false

def opensMark (c : Char) : Bool :=
  c == '.' || c == '?' || c == '=' || c == '+' || c == '-' || c == '!'

/-! ## Words -/

def isControl (w : String) : Bool := w == "if" || w == "while" || w == "for" || w == "with"

def isPrefixWord (w : String) : Bool :=
  ["return", "typeof", "case", "void", "delete", "new", "await", "yield", "throw", "default",
    "extends", "in", "instanceof"].contains w

def isJoiningWord (w : String) : Bool := ["as", "satisfies", "of", "is"].contains w

def isStatementWord (w : String) : Bool := w == "else" || w == "do"

/-! ## State -/

inductive Due where
  /-- A statement or the body of a function: an operand, unless braces make it a block. -/
  | statement
  | operand
  | operator
  | member
  /-- What makes a keyword `import` a callee. -/
  | callee
deriving DecidableEq

inductive Shape where
  | file
  | block
  | object
  /-- A parenthesis, of a statement such as `if` or not. -/
  | round (control : Bool)
  | square
  | angle
  /-- A template of which a substitution was found. -/
  | template
  | substitution
  /-- An opening tag, with the depth of its type arguments. -/
  | tag (depth : Nat)
  | element
  | embedded
deriving DecidableEq

namespace Shape

def bracket : Shape → Bracket
  | round _ => .round
  | square => .square
  | angle => .angle
  | template => .template
  | tag _ | element => .markup
  | file | block | object | substitution | embedded => .curly

def opening : Shape → String
  | file => ""
  | round _ => "("
  | square => "["
  | angle | tag _ | element => "<"
  | template => "`"
  | block | object | substitution | embedded => "\x7b"

def isTag : Shape → Bool
  | tag _ => true
  | _ => false

/-- Whether a closing bracket inside may belong to a group outside. -/
def isLoose : Shape → Bool
  | round _ | square | angle => true
  | _ => false

def closesWith : Shape → Char → Bool
  | round _, c => c == ')'
  | square, c => c == ']'
  | angle, c => c == '>'
  | block, c | object, c | substitution, c | embedded, c => c == '\x7d'
  | _, _ => false

end Shape

structure Frame where
  shape : Shape
  items : List Token

namespace Frame

def push (f : Frame) (t : Token) : Frame := { f with items := t :: f.items }

def close (f : Frame) : Token := .group f.shape.bracket f.items.reverse

def absorb (f inner : Frame) : Frame :=
  { f with items := inner.items ++ .mark inner.shape.opening :: f.items }

end Frame

inductive Mode where
  | between
  | word (read : List Char)
  | mark (read : String)
  | slash
  | lineComment
  | blockComment (afterStar : Bool)
  | quoted (quote : Char) (pieces : List Piece) (fragment : List Char)
  | dollar (pieces : List Piece) (fragment : List Char)
  | escape (quote : Char) (pieces : List Piece) (read : List Char)
  | regex (inClass escaped : Bool)
  | regexFlags
  | attribute (quote : Char)
  | tagStart
  | closingTag

end ModuleAtlas.Source.Scanner

namespace ModuleAtlas.Source

structure Scanner where
  dialect : Dialect
  /-- The names of elements that the text closes somewhere. -/
  closed : List String
  mode : Scanner.Mode
  due : Scanner.Due
  /-- The last word is a keyword before the parenthesis of a statement. -/
  control : Bool
  frame : Scanner.Frame
  outer : List Scanner.Frame

end ModuleAtlas.Source
