import ModuleAtlas.ProjectRoot

/-!
# Labels and scope

A label is what a diagram shows for a module: the path relative to the project, without the source
root and without the extension. An `index` module stands for its directory, so `Button/index.tsx`
and `Button.tsx` share the label `Button`; modules with equal labels are one node on purpose.

The scope says which project areas count as roots and targets of a graph: the listed path
beginnings, or everything below the source root when none is listed.
-/

namespace ModuleAtlas

def defaultSourceRoot : String := "src/"

structure Labeler where
  root : ProjectRoot
  sourceRoot : String

namespace Labeler

/-- A source root is closed with a slash, so that it ends at a directory. -/
def ofSourceRoot (root : ProjectRoot) (sourceRoot : String) : Labeler :=
  ⟨root, Text.closeWithSlash sourceRoot⟩

/-- A file name without its last extension; a dot in front belongs to the name. -/
def stem (file : List Char) : List Char :=
  match Text.splitLast? '.' file with
  | some (front, _) => if front.isEmpty then file else front
  | none => file

def isIndex (stem : List Char) : Bool := stem.map Char.toLower = ['i', 'n', 'd', 'e', 'x']

def labelRelative (l : Labeler) (relative : String) : String :=
  let shown := (Text.after? l.sourceRoot relative).getD relative
  match Text.splitLast? '/' shown.toList with
  | some (directory, file) =>
    let name := stem file
    String.ofList (if isIndex name then directory else directory ++ '/' :: name)
  | none =>
    let name := stem shown.toList
    if isIndex name then "." else String.ofList name

def label (l : Labeler) (p : Path) : String := l.labelRelative (l.root.normalize p)

end Labeler

inductive Scope where
  | beginnings (fronts : List String)
  | sourceRoot (front : String)
deriving DecidableEq

namespace Scope

/-- The source root is closed with a slash, so `src` does not cover `srcgen/`. -/
def ofSettings (fronts : List String) (sourceRoot : String) : Scope :=
  if fronts.isEmpty then .sourceRoot (Text.closeWithSlash sourceRoot) else .beginnings fronts

def covers : Scope → String → Bool
  | beginnings fronts, relative => fronts.any (Text.startsWith relative ·)
  | sourceRoot front, relative => Text.startsWith relative front

end Scope

end ModuleAtlas
