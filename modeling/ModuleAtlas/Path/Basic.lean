import ModuleAtlas.Text

/-!
# Paths

A path is text whose parts are separated by slashes. Reading it left to right gives components:
empty parts carry no meaning, and neither does `.` except as the very first part of a relative
path. Two spellings of one component list compare equal and sort alike, although their texts differ.

The names in a path may be any bytes, written as `Text.Sign` says. Only texts are compared with what
a program names, so a stray byte never makes a name mean something else.
-/

namespace ModuleAtlas

structure Path where
  text : String
deriving DecidableEq, Inhabited

inductive Component where
  | root
  | here
  | up
  | name (s : String)
deriving DecidableEq

namespace Component

def text : Component → String
  | root => "/"
  | here => "."
  | up => ".."
  | name s => s

/-- The root sorts first, then `.`, then `..`, then names. -/
def rank : Component → Nat
  | root => 0
  | here => 1
  | up => 2
  | name _ => 3

def bytes (part : Component) : List UInt8 := Text.encode part.text.toList

/-- Names sort by their bytes; the texts only tell apart what is written for the same bytes. -/
instance : Ord Component :=
  ⟨compareLex (compareOn rank) (compareLex (compareOn bytes) (compareOn text))⟩

end Component

namespace Path

def shown (p : Path) : String := Text.lossy p.text

def segments (p : Path) : List String := (p.text.toList.splitOn '/').map String.ofList

def isAbsolute (p : Path) : Bool := p.text.toList.head? == some '/'

/-- The component that a piece stands for inside a path, if any. -/
def ofSegment? (s : String) : Option Component :=
  if s = "" ∨ s = "." then none else if s = ".." then some .up else some (.name s)

def components (p : Path) : List Component :=
  let inner := p.segments.filterMap ofSegment?
  if p.isAbsolute then .root :: inner
  else if p.segments.head? = some "." then .here :: inner
  else inner

/-- The shortest spelling of a component list. -/
def ofComponents : List Component → Path
  | .root :: rest => ⟨"/" ++ "/".intercalate (rest.map Component.text)⟩
  | parts => ⟨"/".intercalate (parts.map Component.text)⟩

/-- Paths are ordered component by component, not by their text. -/
instance : Ord Path := ⟨fun p q => compare p.components q.components⟩

def same (p q : Path) : Bool := p.components == q.components

/-! ## Putting paths together -/

/-- `q` seen from the directory `p`; an absolute `q` stands for itself. -/
def join (p q : Path) : Path :=
  if q.isAbsolute || p.text = "" then q
  else if Text.endsWith p.text "/" then ⟨p.text ++ q.text⟩
  else ⟨p.text ++ "/" ++ q.text⟩

def withSuffix (p : Path) (suffix : String) : Path := ⟨p.text ++ "." ++ suffix⟩

/-! ## Taking paths apart -/

/-- The leading marks of a path's text (`/` or `.`) and the pieces after them, without the
meaningless ones at the end. -/
def trimmed (p : Path) : Option String × List String :=
  let noise : String → Bool := fun s => s = "" || s = "."
  let trim (pieces : List String) : List String := (pieces.reverse.dropWhile noise).reverse
  if p.isAbsolute then (some "", trim p.segments.tail)
  else if p.segments.head? = some "." then (some ".", trim p.segments.tail)
  else (none, trim p.segments)

def ofTrimmed : Option String × List String → Path
  | (some "", pieces) => ⟨"/" ++ "/".intercalate pieces⟩
  | (lead, pieces) => ⟨"/".intercalate (lead.toList ++ pieces)⟩

/-- The path without its last component; none for the root and for the empty path. -/
def parent? (p : Path) : Option Path :=
  match p.trimmed with
  | (lead, []) => if lead = some "." then some ⟨""⟩ else none
  | (lead, pieces) => some (ofTrimmed (ofTrimmed (lead, pieces.dropLast)).trimmed)

def fileName? (p : Path) : Option String :=
  match p.components.getLast? with
  | some (.name s) => some s
  | _ => none

/-- A file name cut at its last dot, unless that dot comes first. -/
def splitExtension? (name : String) : Option (String × String) :=
  match Text.splitLast? '.' name.toList with
  | some (stem, ext) => if stem.isEmpty then none else some (String.ofList stem, String.ofList ext)
  | none => none

def extension? (p : Path) : Option String :=
  p.fileName?.bind fun name => (splitExtension? name).map Prod.snd

def withExtension (p : Path) (ext : String) : Path :=
  match p.fileName? with
  | none => p
  | some name =>
    let stem := ((splitExtension? name).map Prod.fst).getD name
    let (lead, pieces) := p.trimmed
    ofTrimmed (lead, pieces.dropLast ++ [stem ++ "." ++ ext])

/-- The rest of a path below a directory whose components it starts with. -/
def below? (directory p : Path) : Option Path :=
  let rec rest : List Component → List Component → Option (List Component)
    | [], parts => some parts
    | _ :: _, [] => none
    | a :: dir, b :: parts => if a = b then rest dir parts else none
  (rest directory.components p.components).map ofComponents

/-! ## Cleaning

Cleaning reads a path without looking at any file system: `.` is dropped, `..` takes back the name
before it, stays at the root, and is kept where a relative path has nothing left to take back. The
empty result is written `.`. -/

/-- Adds one component to a cleaned list, whose last component stands first. -/
def settle (done : List Component) : Component → List Component
  | .here => done
  | .up =>
    match done with
    | .root :: _ => done
    | .name _ :: rest => rest
    | _ => .up :: done
  | part => part :: done

def cleanComponents (parts : List Component) : List Component := (parts.foldl settle []).reverse

/-- The canonical spelling of the place that a path denotes. -/
def clean (p : Path) : Path :=
  match cleanComponents p.components with
  | [] => ⟨"."⟩
  | parts => ofComponents parts

end Path

end ModuleAtlas
