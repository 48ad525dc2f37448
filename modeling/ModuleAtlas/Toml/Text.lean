/-!
# TOML strings

The four kinds of strings: in double quotes with escapes or in single quotes without, on one line or
over several. A reader starts behind the opening quotes and gives what follows the closing ones.
-/

namespace ModuleAtlas.Toml

/-- A reader takes a value off the front of a text, if it can. -/
abbrev Reader (α : Type) := List Char → Option (α × List Char)

namespace Text

/-- Characters that may stand for themselves on a line: no control characters but the tab. -/
def isPlain (c : Char) : Bool := (0x20 ≤ c.toNat && c.toNat != 0x7F) || c == '\t'

def isBlank (c : Char) : Bool := c == ' ' || c == '\t'

def hexDigit? (c : Char) : Option Nat :=
  if c.isDigit then some (c.toNat - '0'.toNat)
  else if 'a' ≤ c ∧ c ≤ 'f' then some (c.toNat - 'a'.toNat + 10)
  else if 'A' ≤ c ∧ c ≤ 'F' then some (c.toNat - 'A'.toNat + 10)
  else none

/-- The character with a hexadecimal number, which must be a Unicode scalar value. -/
def hexChar? (digits : List Char) : Option Char := do
  let n ← digits.foldlM (fun n c => (hexDigit? c).map (16 * n + ·)) 0
  if n.isValidChar then some (Char.ofNat n) else none

def simpleEscape? : Char → Option Char
  | 'b' => some '\x08'
  | 't' => some '\t'
  | 'n' => some '\n'
  | 'f' => some '\x0c'
  | 'r' => some '\r'
  | 'e' => some '\x1b'
  | '"' => some '"'
  | '\\' => some '\\'
  | _ => none

def prepend (c? : Option Char) (r? : Option (List Char × List Char)) :
    Option (List Char × List Char) :=
  match c?, r? with
  | some c, some (text, rest) => some (c :: text, rest)
  | _, _ => none

def basic : Reader (List Char)
  | [] => none
  | '"' :: rest => some ([], rest)
  | '\\' :: 'x' :: a :: b :: rest => prepend (hexChar? [a, b]) (basic rest)
  | '\\' :: 'u' :: a :: b :: c :: d :: rest => prepend (hexChar? [a, b, c, d]) (basic rest)
  | '\\' :: 'U' :: a :: b :: c :: d :: e :: f :: g :: h :: rest =>
    prepend (hexChar? [a, b, c, d, e, f, g, h]) (basic rest)
  | '\\' :: c :: rest => prepend (simpleEscape? c) (basic rest)
  | c :: rest => if isPlain c && c != '\\' then prepend (some c) (basic rest) else none

def raw : Reader (List Char)
  | [] => none
  | '\'' :: rest => some ([], rest)
  | c :: rest => if isPlain c then prepend (some c) (raw rest) else none

/-- The text at the end of a string over several lines, where up to two more quotes may stand before
the three that close it. -/
def closing (quote : Char) (behindThree : List Char) : Option (List Char × List Char) :=
  match behindThree.span (· == quote) with
  | (more, rest) => if more.length ≤ 2 then some (more, rest) else none

/-- Where a string over several lines is being read. -/
inductive Place where
  | inLine
  /-- Behind a backslash that hides a line end. -/
  | hidingLineEnd
  /-- Behind the hidden line end, where blanks and further line ends are hidden too. -/
  | hidden
deriving DecidableEq

/-- A string in three double quotes, behind its first line end. -/
def basicLines : Place → Reader (List Char)
  | _, [] => none
  | .hidingLineEnd, '\n' :: rest => basicLines .hidden rest
  | .hidingLineEnd, '\r' :: '\n' :: rest => basicLines .hidden rest
  | .hidingLineEnd, c :: rest => if isBlank c then basicLines .hidingLineEnd rest else none
  | .hidden, ' ' :: rest | .hidden, '\t' :: rest | .hidden, '\n' :: rest
  | .hidden, '\r' :: '\n' :: rest => basicLines .hidden rest
  | _, '"' :: '"' :: '"' :: rest => closing '"' rest
  | _, '\\' :: 'x' :: a :: b :: rest => prepend (hexChar? [a, b]) (basicLines .inLine rest)
  | _, '\\' :: 'u' :: a :: b :: c :: d :: rest =>
    prepend (hexChar? [a, b, c, d]) (basicLines .inLine rest)
  | _, '\\' :: 'U' :: a :: b :: c :: d :: e :: f :: g :: h :: rest =>
    prepend (hexChar? [a, b, c, d, e, f, g, h]) (basicLines .inLine rest)
  | _, '\\' :: '\n' :: rest | _, '\\' :: '\r' :: '\n' :: rest => basicLines .hidden rest
  | _, '\\' :: c :: rest =>
    if isBlank c then basicLines .hidingLineEnd rest
    else prepend (simpleEscape? c) (basicLines .inLine rest)
  | _, '\r' :: '\n' :: rest => prepend (some '\r') (prepend (some '\n') (basicLines .inLine rest))
  | _, c :: rest =>
    if (isPlain c && c != '\\') || c == '\n' then prepend (some c) (basicLines .inLine rest) else none

def rawLines : Reader (List Char)
  | [] => none
  | '\'' :: '\'' :: '\'' :: rest => closing '\'' rest
  | '\r' :: '\n' :: rest => prepend (some '\r') (prepend (some '\n') (rawLines rest))
  | c :: rest => if isPlain c || c == '\n' then prepend (some c) (rawLines rest) else none

/-- A line end right behind the opening quotes does not count. -/
def withoutFirstLineEnd : List Char → List Char
  | '\n' :: rest | '\r' :: '\n' :: rest => rest
  | text => text

def string : Reader String := fun text =>
  (match text with
    | '"' :: '"' :: '"' :: rest => basicLines .inLine (withoutFirstLineEnd rest)
    | '\'' :: '\'' :: '\'' :: rest => rawLines (withoutFirstLineEnd rest)
    | '"' :: rest => basic rest
    | '\'' :: rest => raw rest
    | _ => none).map fun (s, rest) => (String.ofList s, rest)

end Text

end ModuleAtlas.Toml
