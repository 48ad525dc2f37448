/-!
# Literals

A string or template literal is a row of pieces: text that stands for itself, and escapes. An escape
is the longest text after a backslash that one of the escape forms allows.
-/

namespace ModuleAtlas.Source

inductive Piece where
  | fragment (text : List Char)
  /-- An escape, without its backslash. -/
  | escape (text : List Char)
deriving DecidableEq

structure Literal where
  /-- Written between backquotes. -/
  isTemplate : Bool
  pieces : List Piece
deriving DecidableEq

namespace Escape

def isOctal (c : Char) : Bool := '0' ≤ c && c ≤ '7'

def isHex (c : Char) : Bool := c.isDigit || ('a' ≤ c && c ≤ 'f') || ('A' ≤ c && c ≤ 'F')

def isLineEnd (c : Char) : Bool := c == '\n' || c == '\u2028' || c == '\u2029'

/-- Whether a character continues an escape of which the given text was read. -/
def continues : List Char → Char → Bool
  | [], _ => true
  | ['x'], c => isHex c
  | ['x', _], c => isHex c
  | ['u'], c => isHex c || c == '{'
  | 'u' :: '{' :: digits, c => ! digits.contains '}' && (isHex c || c == '}')
  | 'u' :: digits, c => digits.length < 4 && isHex c
  | [d], c => (isOctal d && isOctal c) || ((d == '\r' || d == '?') && isLineEnd c)
  | [d, e], c => isOctal d && isOctal e && isOctal c
  | _, _ => false

/-- What an escape stands for. One of a single character is decoded, or stands for that character;
a longer one, which is numeric or breaks a line, is kept as it is written. -/
def value : List Char → List Char
  | ['n'] => ['\n']
  | ['t'] => ['\t']
  | ['r'] => ['\r']
  | ['0'] => ['\x00']
  | [c] => [c]
  | text => '\\' :: text

/-- What an escape stands for that is given with its backslash. -/
def decode (text : String) : String :=
  match text.toList with
  | ['\\', c] => String.ofList (value [c])
  | _ => text

end Escape

def Piece.value : Piece → List Char
  | fragment text => text
  | escape text => Escape.value text

/-- The text that a literal stands for. -/
def Literal.value (l : Literal) : String := String.ofList (l.pieces.flatMap Piece.value)

end ModuleAtlas.Source
