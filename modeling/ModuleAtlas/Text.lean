/-!
# Text, and names that are not text

Text is handled as a list of characters wherever it is taken apart, so that every cut is a
recursion on that list; the functions on `String` only convert.

The name of a file may be any bytes. In the text that stands for a name, a byte that belongs to no
character is written as NUL, which no name holds, and the character whose code is the byte.
-/

namespace ModuleAtlas.Text

def chopFront? : List Char → List Char → Option (List Char)
  | [], text => some text
  | _ :: _, [] => none
  | c :: front, d :: text => if c = d then chopFront? front text else none

def chopBack? (back text : List Char) : Option (List Char) :=
  (chopFront? back.reverse text.reverse).map List.reverse

def splitLast? (c : Char) (text : List Char) : Option (List Char × List Char) :=
  match text.reverse.span (· != c) with
  | (_, []) => none
  | (after, _ :: before) => some (before.reverse, after.reverse)

def after? (front text : String) : Option String :=
  (chopFront? front.toList text.toList).map String.ofList

def before? (back text : String) : Option String :=
  (chopBack? back.toList text.toList).map String.ofList

def startsWith (text front : String) : Bool := (after? front text).isSome

def endsWith (text back : String) : Bool := (before? back text).isSome

def closeWithSlash (text : String) : String :=
  if text = "" || endsWith text "/" then text else text ++ "/"

/-- Blank characters of Unicode: the property `White_Space`. -/
def isBlank (c : Char) : Bool :=
  let n := c.toNat
  (9 ≤ n && n ≤ 13) || n == 0x20 || n == 0x85 || n == 0xA0 || n == 0x1680
    || (0x2000 ≤ n && n ≤ 0x200A) || n == 0x2028 || n == 0x2029 || n == 0x202F
    || n == 0x205F || n == 0x3000

/-! ## Names that are not text -/

inductive Sign where
  | char (c : Char)
  /-- A byte that belongs to no character. -/
  | stray (b : UInt8)
deriving DecidableEq

namespace Sign

def isChar : Sign → Bool
  | char _ => true
  | stray _ => false

def bytes : Sign → List UInt8
  | char c => String.utf8EncodeChar c
  | stray b => [b]

end Sign

def signs : List Char → List Sign
  | c :: d :: rest =>
    if c = '\x00' ∧ 0x80 ≤ d.toNat ∧ d.toNat ≤ 0xFF then .stray d.toNat.toUInt8 :: signs rest
    else .char c :: signs (d :: rest)
  | rest => rest.map .char

/-- Whether a name is text: UTF-8 to the last byte. -/
def isText (name : String) : Bool := (signs name.toList).all Sign.isChar

def encode (name : List Char) : List UInt8 := (signs name).flatMap Sign.bytes

/-- The ranges of the bytes between the first and the last one of a character. -/
def innerBytes (first : UInt8) : List (UInt8 × UInt8) :=
  if first = 0xE0 then [(0xA0, 0xBF)]
  else if first = 0xED then [(0x80, 0x9F)]
  else if 0xE1 ≤ first ∧ first ≤ 0xEF then [(0x80, 0xBF)]
  else if first = 0xF0 then [(0x90, 0xBF), (0x80, 0xBF)]
  else if 0xF1 ≤ first ∧ first ≤ 0xF3 then [(0x80, 0xBF), (0x80, 0xBF)]
  else if first = 0xF4 then [(0x80, 0x8F), (0x80, 0xBF)]
  else []

/-- Replaces stray bytes, those that could be the beginning of one character together. The list
says which bytes would carry on the character that has begun. -/
def replaceStrays : List (UInt8 × UInt8) → List Sign → List Char
  | _, [] => []
  | _, .char c :: rest => c :: replaceStrays [] rest
  | [], .stray b :: rest => '\uFFFD' :: replaceStrays (innerBytes b) rest
  | (low, high) :: inner, .stray b :: rest =>
    if low ≤ b ∧ b ≤ high then replaceStrays inner rest
    else '\uFFFD' :: replaceStrays (innerBytes b) rest

/-- A name as it is shown where only text can be. -/
def lossy (name : String) : String := String.ofList (replaceStrays [] (signs name.toList))

end ModuleAtlas.Text
