import ModuleAtlas.Path.Basic

/-!
# The project root

Paths are shown relative to the project root, and the relative path tells where a module belongs:
inside the project, in a vendored dependency tree, or outside.
-/

namespace ModuleAtlas

def vendorMarker : String := "node_modules"

inductive Location where
  | internal
  | external
  | outsideRoot
deriving DecidableEq

/-- A project root, held in cleaned form. -/
structure ProjectRoot where
  path : Path

namespace ProjectRoot

def ofPath (p : Path) : ProjectRoot := ⟨p.clean⟩

/-- The steps from one cleaned component list to another: up as often as needed, then down. -/
def steps : List Component → List Component → List String
  | a :: root, b :: rest =>
    if a = b then steps root rest else climb (a :: root) ++ descend (b :: rest)
  | root, rest => climb root ++ descend rest
where
  climb (root : List Component) : List String := (root.filter (· ≠ .here)).map fun _ => ".."
  descend (rest : List Component) : List String := 
    (rest.filter (· ≠ .here)).map fun part => Text.lossy part.text

def relativeParts (r : ProjectRoot) (p : Path) : List String :=
  steps r.path.components p.clean.components

/-- The path relative to the root; the root itself is `.`. -/
def normalize (r : ProjectRoot) (p : Path) : String :=
  match r.relativeParts p with
  | [] => "."
  | parts => "/".intercalate parts

def locate (r : ProjectRoot) (p : Path) : Location :=
  let parts := r.relativeParts p
  if parts.contains vendorMarker then .external
  else if parts.head? = some ".." then .outsideRoot
  else .internal

end ProjectRoot

end ModuleAtlas
