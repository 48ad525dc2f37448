/-!
# JSON tokens

A JSON text is cut into tokens before it is read. What is wrong with a string or a number depends on
whether its value is wanted or passed over, so a token says both, and whoever reads the tokens from
left to right meets the first fault first.
-/

namespace ModuleAtlas.Json

inductive Fault where
  | early
  | malformed
  /-- The text is JSON so far, but of another type. -/
  | mismatch
deriving DecidableEq

inductive Token where
  | openArray
  | closeArray
  | openObject
  | closeObject
  | comma
  | colon
  | null
  /-- A number or a truth value, with the fault found by whoever wants its value. -/
  | scalar (fault? : Option Fault)
  /-- A string, with its text unless half a surrogate pair stands in it. -/
  | string (text : Except Fault String)
  /-- A string that cannot be passed over either. -/
  | brokenString (wanted passed : Fault)
  | broken (wanted passed : Fault)

namespace Token

def isBlank (c : Char) : Bool := c == ' ' || c == '\n' || c == '\t' || c == '\r'

/-! ## Words -/

def afterLetters : List Char → List Char → Except Fault (List Char)
  | [], text => .ok text
  | _ :: _, [] => .error .early
  | a :: letters, c :: text => if a = c then afterLetters letters text else .error .malformed

/-! ## Strings -/

def hexDigit? (c : Char) : Option Nat :=
  if c.isDigit then some (c.toNat - '0'.toNat)
  else if 'a' ≤ c ∧ c ≤ 'f' then some (c.toNat - 'a'.toNat + 10)
  else if 'A' ≤ c ∧ c ≤ 'F' then some (c.toNat - 'A'.toNat + 10)
  else none

def hexNumber? (digits : List Char) : Option Nat :=
  digits.foldl (fun n c => n.bind fun n => (hexDigit? c).map (16 * n + ·)) (some 0)

def isHighHalf (n : Nat) : Bool := 0xD800 ≤ n && n ≤ 0xDBFF

def isLowHalf (n : Nat) : Bool := 0xDC00 ≤ n && n ≤ 0xDFFF

def ofHalves (high low : Nat) : Char :=
  Char.ofNat (0x10000 + (high - 0xD800) * 0x400 + (low - 0xDC00))

def byteCount (text : List Char) : Nat := (String.ofList text).utf8ByteSize

/-- The fault of a numeric escape with less than four characters behind it: the text ends early if
there is not even room for four digits. -/
def shortEscapeFault (text : List Char) : Fault := if byteCount text < 4 then .early else .malformed

/-- The fault of a first half that no second half follows. -/
def loneHalfFault : List Char → Fault
  | [] | ['\\'] => .early
  | '\\' :: 'u' :: text => shortEscapeFault text
  | _ => .malformed

def simpleEscape? : Char → Option Char
  | '"' => some '"'
  | '\\' => some '\\'
  | '/' => some '/'
  | 'b' => some '\x08'
  | 'f' => some '\x0c'
  | 'n' => some '\n'
  | 'r' => some '\r'
  | 't' => some '\t'
  | _ => none

/-- A string read up to its quote: its text, and what follows it. The two can fail apart. -/
structure Reading where
  text : Except Fault (List Char)
  rest : Except Fault (List Char)

namespace Reading

def broken (f : Fault) : Reading := ⟨.error f, .error f⟩

def prepend (c : Char) (r : Reading) : Reading := { r with text := r.text.map (c :: ·) }

/-- The text has no value, but can still be passed over. -/
def withoutText (f : Fault) (r : Reading) : Reading := { r with text := .error f }

end Reading

def readString : List Char → Reading
  | [] => .broken .early
  | ['\\'] => .broken .early
  | '\\' :: 'u' :: a :: b :: c :: d :: rest =>
    match hexNumber? [a, b, c, d] with
    | none => .broken .malformed
    | some n =>
      if isLowHalf n then (readString rest).withoutText .malformed
      else if isHighHalf n then
        match rest with
        | '\\' :: 'u' :: e :: f :: g :: h :: behind =>
          match hexNumber? [e, f, g, h] with
          | none => .broken .malformed
          | some m =>
            if isLowHalf m then (readString behind).prepend (ofHalves n m)
            else (readString ('\\' :: 'u' :: e :: f :: g :: h :: behind)).withoutText .malformed
        | rest => (readString rest).withoutText (loneHalfFault rest)
      else (readString rest).prepend (Char.ofNat n)
  | '\\' :: 'u' :: rest => .broken (shortEscapeFault rest)
  | '\\' :: c :: rest =>
    match simpleEscape? c with
    | some d => (readString rest).prepend d
    | none => .broken .malformed
  | c :: rest =>
    if c = '"' then ⟨.ok [], .ok rest⟩
    else if c.toNat < 0x20 then .broken .malformed
    else (readString rest).prepend c

/-! ## Numbers -/

def readDigits (text : List Char) : Except Fault (List Char × List Char) :=
  match text.span Char.isDigit with
  | ([], []) => .error .early
  | ([], _ :: _) => .error .malformed
  | (digits, rest) => .ok (digits, rest)

def readWhole (text : List Char) : Except Fault (List Char × List Char) :=
  match text with
  | '0' :: c :: rest => if c.isDigit then .error .malformed else .ok (['0'], c :: rest)
  | text => readDigits text

def readFraction : List Char → Except Fault (List Char × List Char)
  | '.' :: rest => readDigits rest
  | rest => .ok ([], rest)

def ofDigits (digits : List Char) : Nat :=
  digits.foldl (fun n c => 10 * n + (c.toNat - '0'.toNat)) 0

def readExponent : List Char → Except Fault (Int × List Char)
  | 'e' :: rest | 'E' :: rest =>
    match rest with
    | '-' :: rest => (readDigits rest).map fun (digits, rest) => (- Int.ofNat (ofDigits digits), rest)
    | '+' :: rest => (readDigits rest).map fun (digits, rest) => (Int.ofNat (ofDigits digits), rest)
    | rest => (readDigits rest).map fun (digits, rest) => (Int.ofNat (ofDigits digits), rest)
  | rest => .ok (0, rest)

/-- The least integer that no floating-point number of 64 bits comes close to. -/
def rangeEnd : Nat := Nat.pow 2 1024 - Nat.pow 2 970

/-- Whether `digits · 10 ^ exponent` is within range. Only numbers of about the size of the range's
end are multiplied out. -/
def inRange (digits : List Char) (exponent : Int) : Bool :=
  let significant := digits.dropWhile (· == '0')
  let size := Int.ofNat significant.length + exponent
  if significant.isEmpty || size < 300 then true
  else if 320 < size then false
  else if exponent < 0 then ofDigits significant < rangeEnd * Nat.pow 10 (-exponent).toNat
  else ofDigits significant * Nat.pow 10 exponent.toNat < rangeEnd

def readNumber (text : List Char) : Except Fault (Bool × List Char) := do
  let (whole, rest) ← readWhole text
  let (fraction, rest) ← readFraction rest
  let (exponent, rest) ← readExponent rest
  return (inRange (whole ++ fraction) (exponent - fraction.length), rest)

/-! ## Whole texts -/

def wordToken (word : Except Fault (List Char)) (t : Token) : Token × Option (List Char) :=
  match word with
  | .ok rest => (t, some rest)
  | .error f => (broken f f, none)

def stringToken (r : Reading) : Token × Option (List Char) :=
  match r.text, r.rest with
  | .ok text, .ok rest => (string (.ok (String.ofList text)), some rest)
  | .error f, .ok rest => (string (.error f), some rest)
  | .error wanted, .error passed => (brokenString wanted passed, none)
  | .ok _, .error passed => (brokenString passed passed, none)

/-- A number that ends early is only noticed by who wants it; passed over, it is malformed. -/
def numberToken (n : Except Fault (Bool × List Char)) : Token × Option (List Char) :=
  match n with
  | .ok (fits, rest) => (scalar (if fits then none else some .malformed), some rest)
  | .error f => (broken f .malformed, none)

def first (c : Char) (rest : List Char) : Token × Option (List Char) :=
  match c with
  | '[' => (openArray, some rest)
  | ']' => (closeArray, some rest)
  | '\x7b' => (openObject, some rest)
  | '\x7d' => (closeObject, some rest)
  | ',' => (comma, some rest)
  | ':' => (colon, some rest)
  | '"' => stringToken (readString rest)
  | 'n' => wordToken (afterLetters ['u', 'l', 'l'] rest) null
  | 't' => wordToken (afterLetters ['r', 'u', 'e'] rest) (scalar none)
  | 'f' => wordToken (afterLetters ['a', 'l', 's', 'e'] rest) (scalar none)
  | '-' => numberToken (readNumber rest)
  | c =>
    if c.isDigit then numberToken (readNumber (c :: rest)) else (broken .malformed .malformed, none)

/-- The tokens behind so many characters that belong to the token before. -/
def tokensBehind : Nat → List Char → List Token
  | _, [] => []
  | n + 1, _ :: text => tokensBehind n text
  | 0, c :: text =>
    if isBlank c then tokensBehind 0 text
    else
      match first c text with
      | (t, some rest) => t :: tokensBehind (text.length - rest.length) text
      | (t, none) => [t]

def ofText (text : List Char) : List Token := tokensBehind 0 text

end Token

end ModuleAtlas.Json
