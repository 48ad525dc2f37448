import ModuleAtlas.CommandLine.Program

/-!
# Entry point

The program itself is a function from a command line and a disk to an outcome. Here the part of the
file system that it can ask about is looked at beforehand, and what it changed is written back.

The whole tree below the root is looked at. Outside of it these are: the directories above with
their ignore files, the configuration, the place of the output, and whatever the specifiers of the
modules below the root may stand for. The contents of vendored packages play no part.
-/

namespace ModuleAtlas.Survey

open Files

def placeOf (text : String) : Place :=
  (Path.mk text).components.foldl
    (fun place part => match part with
      | .name s => s :: place
      | _ => place) []

def isRead (place : Place) : Bool :=
  ! place.contains vendorMarker && ! (place.contains ".git" && place.contains "objects")

def contentAt (place : Place) : IO Content := do
  if ! isRead place then return .raw []
  match ← (IO.FS.readBinFile place.path.text).toBaseIO with
  | .error _ => return .raw []
  | .ok bytes =>
    match String.fromUTF8? bytes with
    | some s => return .text s
    | none => return .raw bytes.toList

/-- What is at a place of the file system. A link is taken to lead straight to its end. -/
def entryAt? (place : Place) : IO (Option Entry) := do
  let text := place.path.text
  let file := (← IO.FS.realPath "/") / text
  match ← file.symlinkMetadata.toBaseIO with
  | .error _ => return none
  | .ok data =>
    match data.type with
    | .dir => return some .directory
    | .file => return some (.file (← contentAt place))
    | .symlink =>
      if ← file.pathExists then return some (.link ⟨(← IO.FS.realPath text).toString⟩)
      else return none
    | .other => return none

def lookAt (d : Disk) (dir : Place) (name : String) : IO Disk := do
  if (d.tree.get? (name :: dir)).isSome then return d
  match ← entryAt? (name :: dir) with
  | none => return d
  | some e => return (d.put dir name e).toOption.getD d

/-- The disk with everything along a path, and along the targets of the links on it. -/
partial def follow (d : Disk) (dir : Place) : List String → IO Disk
  | [] => return d
  | piece :: rest => do
    if piece = "" || piece = "." then follow d dir rest
    else if piece = ".." then follow d dir.tail rest
    else
      let d ← lookAt d dir piece
      match d.tree.get? (piece :: dir) with
      | some .directory => follow d (piece :: dir) rest
      | some (.link target) =>
        let d ← follow d [] target.segments
        match d.canonical target with
        | .ok place => follow d place rest
        | .error _ => return d
      | _ => return d

def lookAlong (d : Disk) (p : Path) : IO Disk := follow d (d.start p) p.segments

partial def lookBelow (d : Disk) (dir : Place) : IO Disk := do
  if d.tree.get? dir ≠ some .directory then return d
  let file := (← IO.FS.realPath "/") / dir.path.text
  match ← file.readDir.toBaseIO with
  | .error _ => return d
  | .ok children =>
    children.foldlM
      (fun d child => do
        let d ← lookAlong d (dir.path.join ⟨child.fileName⟩)
        lookBelow d (child.fileName :: dir)) d

def ignoreFiles : List Path :=
  ⟨".ignore"⟩ :: Ignore.gitIgnoreFile :: ⟨".git/info/exclude"⟩ :: Ignore.repositoryMarks

def ignorePaths (d : Disk) (dir : Place) : List Path :=
  (List.range (dir.length + 1)).flatMap fun height =>
    let above : Place := dir.drop height
    ignoreFiles.map (above.path.join ·)
      ++ ((Ignore.repositoryData? d above).map (·.join ⟨"info/exclude"⟩)).toList

def probedPaths (d : Disk) (r : Resolver) (place : Place) : List Path :=
  let importer := ModuleId.ofPath place.path
  ((d.references importer.path).toOption.getD []).flatMap fun reference =>
    (r.candidates importer.path reference.specifier).flatMap fun candidate =>
      Probe.paths (fun _ => true) candidate

/-- The disk as far as a run under a configuration can ask about it. -/
def lookForRun (d : Disk) (c : Config) : IO Disk := do
  let d ← lookAlong d c.root
  let d ← lookAlong d (c.root.join c.outputPath)
  match d.canonical c.root with
  | .error _ => return d
  | .ok root =>
    let d ← lookBelow d root
    let d ← (ignorePaths d root).foldlM lookAlong d
    let d ← (ignorePaths d root).foldlM lookAlong d
    let resolver := c.resolver d root.path
    let sources := d.tree.places.filter fun place => root.isSuffixOf place && isRead place
    (sources.flatMap (probedPaths d resolver)).foldlM lookAlong d

def ofWords (words : List String) : IO Disk := do
  let here := placeOf (← IO.FS.realPath ".").toString
  let d ← lookAlong ⟨.empty, here⟩ here.path
  match CommandLine.Request.ofWords words with
  | .run o =>
    let d ← lookAlong d (o.config?.getD ((o.root?.getD ⟨"."⟩).join ⟨configFile⟩))
    match o.configuration d with
    | .ok c => lookForRun d c
    | .error _ => return d
  | _ => return d

def writeBack (before after : FileTree) : IO Unit := do
  let changed := after.places.filter fun place => after.get? place ≠ before.get? place
  for place in changed.mergeSort (fun a b => a.length ≤ b.length) do
    match after.get? place with
    | some .directory => IO.FS.createDir place.path.text
    | some (.file (.text s)) => IO.FS.writeFile place.path.text s
    | _ => pure ()

end ModuleAtlas.Survey

open ModuleAtlas in
def main (words : List String) : IO UInt32 := do
  let disk ← Survey.ofWords words
  let outcome := CommandLine.run words disk
  Survey.writeBack disk.tree outcome.disk.tree
  IO.print outcome.stdout
  if let some text := outcome.error? then IO.eprintln ("Error: " ++ text)
  return outcome.code.toUInt32
