import ModuleAtlas.Files.Tree

/-!
# Disks

A disk is a file tree seen from a working directory, where relative paths start. A path is followed
name by name: `.` and repeated slashes stay where they are, `..` goes to the parent directory, and a
symbolic link is replaced by its target, at most forty times in one lookup. A path ends at an entry
or at a free name of a directory; anything else is a fault.
-/

namespace ModuleAtlas.Files

inductive Fault where
  | notFound
  | exists
  | notDirectory
  | isDirectory
  | tooManyLinks
  /-- The bytes of a file are no text. -/
  | notText
  | denied
deriving DecidableEq

def Fault.message : Fault → String
  | notFound => "No such file or directory (os error 2)"
  | .exists => "File exists (os error 17)"
  | notDirectory => "Not a directory (os error 20)"
  | isDirectory => "Is a directory (os error 21)"
  | tooManyLinks => "Too many levels of symbolic links (os error 40)"
  | notText => "stream did not contain valid UTF-8"
  | denied => "permission denied"

def linkLimit : Nat := 40

inductive Spot where
  | taken (place : Place) (entry : Entry)
  | free (dir : Place) (name : String)
deriving DecidableEq

/-- The end of a path, and whether slashes after the last name ask for a directory. -/
structure Destination where
  spot : Spot
  asDirectory : Bool
deriving DecidableEq

namespace FileTree

/-- Follows the pieces of a path from a directory. Links on the way go to `onLink`, together with
the directory that holds the link and the pieces after it; a link at the end only if `last`. -/
def follow (t : FileTree) (last : Bool)
    (onLink : Place → Path → List String → Except Fault Destination) :
    Place → List String → Except Fault Destination
  | dir, [] => .ok ⟨.taken dir .directory, true⟩
  | dir, piece :: rest =>
    if piece = "" ∨ piece = "." then follow t last onLink dir rest
    else if piece = ".." then follow t last onLink dir.tail rest
    else
      let atEnd := rest.all (· == "")
      match t.get? (piece :: dir) with
      | some .directory => follow t last onLink (piece :: dir) rest
      | some (.link target) =>
        if atEnd && ! last then .ok ⟨.taken (piece :: dir) (.link target), ! rest.isEmpty⟩
        else onLink dir target rest
      | some (.file content) =>
        if atEnd then .ok ⟨.taken (piece :: dir) (.file content), ! rest.isEmpty⟩
        else .error .notDirectory
      | none =>
        if atEnd then .ok ⟨.free dir piece, ! rest.isEmpty⟩ else .error .notFound

/-- Follows pieces through a bounded number of links. -/
def trace (t : FileTree) (last : Bool) : Nat → Place → List String → Except Fault Destination
  | 0 => t.follow last fun _ _ _ => .error .tooManyLinks
  | links + 1 => t.follow last fun dir target rest =>
    t.trace last links (if target.isAbsolute then [] else dir) (target.segments ++ rest)

end FileTree

structure Disk where
  tree : FileTree
  here : Place

namespace Disk

def seenFrom (d : Disk) (dir : Place) : Disk := { d with here := dir }

def start (d : Disk) (p : Path) : Place := if p.isAbsolute then [] else d.here

/-- Where a path leads; the empty path leads nowhere. -/
def destination (d : Disk) (last : Bool) (p : Path) : Except Fault Destination :=
  if p.text = "" then .error .notFound
  else d.tree.trace last linkLimit (d.start p) p.segments

def entry (d : Disk) (p : Path) : Except Fault (Place × Entry) :=
  match d.destination true p with
  | .error fault => .error fault
  | .ok ⟨.free _ _, _⟩ => .error .notFound
  | .ok ⟨.taken place .directory, _⟩ => .ok (place, .directory)
  | .ok ⟨.taken place e, asDirectory⟩ =>
    if asDirectory then .error .notDirectory else .ok (place, e)

def canonical (d : Disk) (p : Path) : Except Fault Place := (d.entry p).map Prod.fst

def isFile (d : Disk) (p : Path) : Bool := d.entry p matches .ok (_, .file _)

def isDirectory (d : Disk) (p : Path) : Bool := d.entry p matches .ok (_, .directory)

def content (d : Disk) (p : Path) : Except Fault Content :=
  match d.entry p with
  | .error fault => .error fault
  | .ok (_, .file content) => .ok content
  | .ok _ => .error .isDirectory

def read (d : Disk) (p : Path) : Except Fault String :=
  match d.content p with
  | .error fault => .error fault
  | .ok (.text s) => .ok s
  | .ok (.raw _) => .error .notText

/-- The lines of a file, as far as they are text; none if the path leads to no file. -/
def linesOf (d : Disk) (p : Path) : List String :=
  match d.content p with
  | .ok content => content.lines
  | .error _ => []

end Disk

end ModuleAtlas.Files
