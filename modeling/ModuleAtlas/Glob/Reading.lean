import ModuleAtlas.Glob.Pattern

/-!
# Reading glob patterns

Reading goes through the text once. The groups that are still open are kept on a stack, each with
the branches that are finished and the pieces that stand before the group. `**` is recursive only
where it fills a whole component: at the start of a branch, or after a slash, and before a slash or
the end.
-/

namespace ModuleAtlas.Glob

/-- A group whose closing brace has not been met: its finished branches and the pieces in front of
it, both with the newest first. -/
structure OpenGroup where
  finished : List (List Piece)
  front : List Piece

structure Reading where
  current : List Piece
  groups : List OpenGroup

namespace Reading

def start : Reading := ⟨[], []⟩

def push (r : Reading) (piece : Piece) : Reading := { r with current := piece :: r.current }

def openGroup (r : Reading) : Reading := ⟨[], ⟨[], r.current⟩ :: r.groups⟩

/-- A comma separates branches inside a group and is an ordinary character elsewhere. -/
def comma (r : Reading) : Reading :=
  match r.groups with
  | [] => r.push (.char ',')
  | g :: outer => ⟨[], { g with finished := r.current.reverse :: g.finished } :: outer⟩

def closeGroup (r : Reading) : Except Fault Reading :=
  match r.groups with
  | [] => .error .unopenedGroup
  | g :: outer =>
    let branches := (r.current.reverse :: g.finished).reverse
    .ok ⟨.either (branches.filter fun branch => ! branch.all Piece.isVoid) :: g.front, outer⟩

def twoRuns (r : Reading) : Reading := (r.push .run).push .run

/-- A recursive wildcard takes the place of the slash before it, and repeats of it collapse. -/
def recursive (r : Reading) (piece : Piece) : Reading :=
  match r.current with
  | .leading :: _ | .trailing :: _ => r
  | _ :: before => { r with current := piece :: before }
  | [] => { r with current := [piece] }

/-- The effect of two stars, given the character before them and the text after them; the flag
tells that the slash after them belongs to the wildcard. -/
def stars (r : Reading) (prev : Option Char) (rest : List Char) : Reading × Bool :=
  let next := rest.head?
  if r.current.isEmpty then
    if next = none then (r.push .leading, false)
    else if next = some '/' then (r.push .leading, true)
    else (r.twoRuns, false)
  else if prev ≠ some '/' ∧ (r.groups.isEmpty ∨ (prev ≠ some ',' ∧ prev ≠ some '{')) then
    (r.twoRuns, false)
  else if next = none ∨ ((next = some ',' ∨ next = some '}') ∧ ¬ r.groups.isEmpty) then
    (r.recursive .trailing, false)
  else if next = some '/' then (r.recursive .inner, true)
  else (r.twoRuns, false)

end Reading

/-- The rest of a class, after its opening bracket and its negation mark. The ranges have the newest
first; `first` tells that nothing has been read, `waiting` that a range waits for its end. -/
def readClass (first waiting : Bool) (ranges : List (Char × Char)) :
    List Char → Except Fault (List (Char × Char) × List Char)
  | [] => .error .unclosedClass
  | c :: rest =>
    if c = ']' ∧ ¬ first then
      .ok ((if waiting then ('-', '-') :: ranges else ranges).reverse, rest)
    else if c = '-' ∧ ¬ first ∧ ¬ waiting then readClass false true ranges rest
    else
      match waiting, ranges with
      | true, (low, _) :: others =>
        if c < low then .error (.invalidRange low c)
        else readClass false false ((low, c) :: others) rest
      | _, _ => readClass false false ((c, c) :: ranges) rest

inductive Brackets where
  | strict
  /-- It opens a class; the first that is not closed makes this bracket and all later ones plain. -/
  | lenient
  | plain
deriving DecidableEq

/-- Reads on from a state, given the character before the text. Every step takes a character, so
the length of the text is fuel enough. -/
def readPieces : Nat → Brackets → Reading → Option Char → List Char → Except Fault Reading
  | 0, _, r, _, _ => .ok r
  | _ + 1, _, r, _, [] => .ok r
  | fuel + 1, brackets, r, prev, c :: rest =>
    match c with
    | '?' => readPieces fuel brackets (r.push .anyByte) (some c) rest
    | '*' =>
      match rest with
      | '*' :: rest =>
        match r.stars prev rest with
        | (r, true) => readPieces fuel brackets r (some '/') rest.tail
        | (r, false) => readPieces fuel brackets r (some '*') rest
      | _ => readPieces fuel brackets (r.push .run) (some c) rest
    | '[' =>
      if brackets = .plain then readPieces fuel .plain (r.push (.char c)) (some c) rest
      else
        let negated := rest.head? = some '!' ∨ rest.head? = some '^'
        match readClass true false [] (if negated then rest.tail else rest) with
        | .ok (ranges, rest) =>
          readPieces fuel brackets (r.push (.oneOf negated ranges)) (some ']') rest
        | .error fault =>
          if fault = .unclosedClass ∧ brackets = .lenient then
            readPieces fuel .plain (r.push (.char c)) (some c) rest
          else .error fault
    | '{' => readPieces fuel brackets r.openGroup (some c) rest
    | '}' =>
      match r.closeGroup with
      | .error fault => .error fault
      | .ok r => readPieces fuel brackets r (some c) rest
    | ',' => readPieces fuel brackets r.comma (some c) rest
    | '\\' =>
      match rest with
      | [] => .error .danglingEscape
      | d :: rest => readPieces fuel brackets (r.push (.char d)) (some d) rest
    | c => readPieces fuel brackets (r.push (.char c)) (some c) rest

namespace Pattern

/-- Reads a pattern; the leftmost fault wins, and a group left open is noticed at the end. -/
def ofTextWith (brackets : Brackets) (text : String) : Except Fault Pattern :=
  match readPieces text.toList.length brackets .start none text.toList with
  | .error fault => .error fault
  | .ok r => if r.groups.isEmpty then .ok ⟨r.current.reverse⟩ else .error .unclosedGroup

def ofText (text : String) : Except Fault Pattern := ofTextWith .strict text

end Pattern

end ModuleAtlas.Glob
