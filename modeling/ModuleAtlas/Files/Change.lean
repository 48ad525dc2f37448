import ModuleAtlas.Files.Disk
import ModuleAtlas.Sink

/-!
# Changing files

A single change either succeeds or leaves the tree as it was. Making a directory with all its
parents is a series of changes, so a part of it can remain after a fault.
-/

namespace ModuleAtlas

namespace Path

def chain : Nat → Path → List Path
  | 0, _ => []
  | fuel + 1, p => p :: (p.parent?.map (chain fuel)).getD []

/-- The path and all paths that it is below, the longest first. -/
def ancestors (p : Path) : List Path := chain (p.segments.length + 1) p

end Path

namespace Files.Disk

def put (d : Disk) (dir : Place) (name : String) (e : Entry) : Except Fault Disk :=
  match d.tree.put? dir name e with
  | some tree => .ok { d with tree := tree }
  | none => .error .notFound

def makeDirectory (d : Disk) (p : Path) : Except Fault Disk :=
  match d.destination false p with
  | .error fault => .error fault
  | .ok ⟨.taken _ _, _⟩ => .error .exists
  | .ok ⟨.free dir name, _⟩ => d.put dir name .directory

/-- Makes a directory, given with its ancestors, if it is not there; ancestors are made only when
the directory cannot be made without them. -/
def makeDirectories : List Path → Disk → Except Fault Unit × Disk
  | [], d => (.ok (), d)
  | p :: ancestors, d =>
    if p.text = "" then (.ok (), d)
    else
      match d.makeDirectory p with
      | .ok d => (.ok (), d)
      | .error .notFound =>
        match makeDirectories ancestors d with
        | (.error fault, d) => (.error fault, d)
        | (.ok (), d) => finish d p
      | .error fault => (settle d p fault, d)
where
  /-- A fault is none after all where the directory is already there. -/
  settle (d : Disk) (p : Path) (fault : Fault) : Except Fault Unit :=
    if d.isDirectory p then .ok () else .error fault
  finish (d : Disk) (p : Path) : Except Fault Unit × Disk :=
    match d.makeDirectory p with
    | .ok d => (.ok (), d)
    | .error fault => (settle d p fault, d)

/-- Makes a link. Its name must be free; its target need not be there. -/
def makeLink (d : Disk) (p target : Path) : Except Fault Disk :=
  match d.destination false p with
  | .error fault => .error fault
  | .ok ⟨.taken _ _, _⟩ => .error .exists
  | .ok ⟨.free dir name, asDirectory⟩ =>
    if asDirectory then .error .notFound else d.put dir name (.link target)

/-- Writes a file, over an earlier one; a link is followed to the file that it stands for, which
need not be there. -/
def write (d : Disk) (p : Path) (content : Content) : Except Fault Disk :=
  match d.destination true p with
  | .error fault => .error fault
  | .ok ⟨.taken _ .directory, _⟩ | .ok ⟨_, true⟩ => .error .isDirectory
  | .ok ⟨.taken (name :: dir) _, false⟩ | .ok ⟨.free dir name, false⟩ =>
    d.put dir name (.file content)
  | .ok ⟨.taken [] _, false⟩ => .error .isDirectory

def remove (d : Disk) (p : Path) : Except Fault Disk :=
  match d.destination false p with
  | .error fault => .error fault
  | .ok ⟨.free _ _, _⟩ => .error .notFound
  | .ok ⟨.taken place _, _⟩ => .ok { d with tree := d.tree.remove place }

def makeParents (d : Disk) (p : Path) : Except Fault Unit × Disk :=
  makeDirectories ((p.parent?.map Path.ancestors).getD []) d

def writeWithParents (d : Disk) (p : Path) (content : Content) : Except Fault Unit × Disk :=
  match d.makeParents p with
  | (.error fault, d) => (.error fault, d)
  | (.ok (), d) =>
    match d.write p content with
    | .ok d => (.ok (), d)
    | .error fault => (.error fault, d)

end Files.Disk

def diskSink (base : Path) : Sink Files.Disk :=
  ⟨fun p text d =>
    let target := base.join p
    let (result, d) := d.writeWithParents target (.text text)
    (result.mapError (⟨target, ·⟩), d)⟩

end ModuleAtlas
