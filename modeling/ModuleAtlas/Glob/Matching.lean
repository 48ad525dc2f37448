import ModuleAtlas.Glob.Pattern
import ModuleAtlas.Text

/-!
# Matching glob patterns

A piece is matched against the front of a byte list and hands what is left to a continuation, so a
pattern matches when some way of matching its pieces one after the other leaves nothing.
-/

namespace ModuleAtlas.Glob

def slash : UInt8 := 47

def afterRun (p : UInt8 → Bool) (k : List UInt8 → Bool) : List UInt8 → Bool
  | [] => k []
  | b :: rest => k (b :: rest) || (p b && afterRun p k rest)

def afterSlash (k : List UInt8 → Bool) : List UInt8 → Bool
  | [] => false
  | b :: rest => (b == slash && k rest) || afterSlash k rest

/-- The byte ranges that a range of characters stands for: the last byte of its first character and
the first byte of its last one bound a range, and the other bytes stand for themselves. -/
def byteRanges (range : Char × Char) : List (UInt8 × UInt8) :=
  let first := String.utf8EncodeChar range.1
  let last := String.utf8EncodeChar range.2
  let single (bytes : List UInt8) := bytes.map fun b => (b, b)
  if range.1 = range.2 then single first
  else single first.dropLast
    ++ [(first.getLastD 0, last.headD 0)] ++ single last.tail

def inRanges (ranges : List (Char × Char)) (b : UInt8) : Bool :=
  (ranges.flatMap byteRanges).any fun (low, high) => low ≤ b && b ≤ high

def afterBytes (k : List UInt8 → Bool) : List UInt8 → List UInt8 → Bool
  | [], bytes => k bytes
  | _ :: _, [] => false
  | a :: front, b :: bytes => a == b && afterBytes k front bytes

/-- Whether some way of matching the piece leaves bytes that the continuation accepts. -/
def matchPiece : Piece → (List UInt8 → Bool) → List UInt8 → Bool
  | .char c, k, bytes => afterBytes k (String.utf8EncodeChar c) bytes
  | .anyByte, k, bytes =>
    match bytes with
    | b :: rest => b != slash && k rest
    | [] => false
  | .run, k, bytes => afterRun (· != slash) k bytes
  | .leading, k, bytes => k bytes || afterSlash k bytes
  | .trailing, k, bytes =>
    match bytes with
    | b :: rest => b == slash && afterRun (fun _ => true) k rest
    | [] => false
  | .inner, k, bytes =>
    match bytes with
    | b :: rest => b == slash && (k rest || afterSlash k rest)
    | [] => false
  | .oneOf negated ranges, k, bytes =>
    match bytes with
    | b :: rest => (inRanges ranges b != negated) && k rest
    | [] => false
  | .either [], k, bytes => k bytes
  | .either branches, k, bytes => matchBranches branches k bytes
where
  matchPieces : List Piece → (List UInt8 → Bool) → List UInt8 → Bool
    | [], k, bytes => k bytes
    | piece :: rest, k, bytes => matchPiece piece (matchPieces rest k) bytes
  matchBranches : List (List Piece) → (List UInt8 → Bool) → List UInt8 → Bool
    | [], _, _ => false
    | branch :: rest, k, bytes =>
      matchPieces branch k bytes || matchBranches rest k bytes

namespace Pattern

def isSlash : Piece → Bool
  | .char '/' => true
  | _ => false

def isChar : Piece → Bool
  | .char _ => true
  | _ => false

/-- Whether the pattern is plain text, or plain text of several components below any directory. -/
def isPlain (p : Pattern) : Bool :=
  match p.pieces with
  | .leading :: rest => rest.all isChar && rest.any isSlash
  | pieces => pieces.all isChar

/-- Whether the pattern ends in a dot and is matched against a last name: it is not plain. -/
def endsInDot (p : Pattern) : Bool :=
  match p.pieces.getLast? with
  | some (.char '.') => ! p.isPlain
  | _ => false

def endsUp (path : String) : Bool := path == ".." || Text.endsWith path "/.."

/-- Whether a pattern matches a path; a lone `**` matches every path. A path that ends in `..` has
no last name, so a pattern that asks for a dot at the end of it does not match. -/
def matchesPath (p : Pattern) (path : String) : Bool :=
  match p.pieces with
  | [.leading] => true
  | pieces =>
    ! (p.endsInDot && endsUp path)
      && matchPiece.matchPieces pieces List.isEmpty (Text.encode path.toList)

end Pattern

end ModuleAtlas.Glob
