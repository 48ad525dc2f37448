import ModuleAtlas.Config.Basic
import ModuleAtlas.Discovery
import ModuleAtlas.Project.Files
import ModuleAtlas.Sink
import ModuleAtlas.Slug

/-!
# Runs

In project mode a run builds one graph of all modules in scope and writes it to one file. In
entries mode it takes the entry modules one by one, in path order: each gets a graph of its own,
which is written before the next one is built, and at last a manifest lists them all. A run ends at
its first failure: a graph that cannot be built or a text that cannot be written; what was written
before stays.

Each graph is built when its turn comes, from the project as the sink then shows it: a run that
writes among its own sources can see what it wrote.
-/

namespace ModuleAtlas

inductive RunFailure where
  | discovery (cause : DiscoveryFailure)
  | graph (cause : Unresolved)
  | write (cause : WriteFailure)
  /-- The steps granted to a traversal did not suffice. -/
  | unfinished
deriving DecidableEq

def RunFailure.message : RunFailure → String
  | discovery cause => cause.message
  | graph cause => cause.message
  | write cause => cause.message
  | unfinished => "traversal did not finish"

structure Report where
  mode : Mode
  /-- One in project mode, else one for each entry. -/
  graphs : Nat
  /-- Everything written, the manifest last. -/
  outputs : List Path
deriving DecidableEq

def Report.isEmpty (r : Report) : Bool := r.graphs == 0

namespace Run

def manifestFile : String := "index.md"

def manifestHeader : String := "# Screen Dependency Graphs"

def labeler (c : Config) (modules : ModuleSet) : Labeler :=
  .ofSourceRoot (.ofPath modules.root) c.sourceRoot

def builder (c : Config) (modules : ModuleSet) (project : Project) : Builder :=
  ⟨labeler c modules, c.scope, c.buildOptions, project⟩

def diagram (c : Config) (modules : ModuleSet) (steps : Nat) (entries : List ModuleId)
    (project : Project) : Except RunFailure String :=
  match (builder c modules project).build c.transitive steps entries with
  | some (.ok g) => .ok (Diagram.render c.fence g)
  | some (.error cause) => .error (.graph cause)
  | none => .error .unfinished

/-- The modules of the set that lie in the project and in scope. -/
def projectEntries (c : Config) (modules : ModuleSet) : List ModuleId :=
  let root := (labeler c modules).root
  modules.modules.filter fun m =>
    root.locate m.path == .internal && c.scope.covers (root.normalize m.path)

def slugOf (c : Config) (modules : ModuleSet) (entry : ModuleId) : String :=
  let l := labeler c modules
  Slug.ofEntry (l.root.normalize entry.path) l.sourceRoot

def fileOf (slug : String) : String := slug ++ ".md"

def manifestLine (slug : String) : String := "- [" ++ slug ++ "](" ++ fileOf slug ++ ")"

/-- What a run does next, unless it has failed. -/
def next {σ α β : Type} (done : Except RunFailure α × σ) (rest : α → σ → Except RunFailure β × σ) :
    Except RunFailure β × σ :=
  match done with
  | (.ok a, s) => rest a s
  | (.error failure, s) => (.error failure, s)

/-- Hands a text to the sink, if it could be made. -/
def write {σ : Type} (sink : Sink σ) (path : Path) (text : Except RunFailure String) (s : σ) :
    Except RunFailure Unit × σ :=
  next (text, s) fun text s =>
    match sink.write path text s with
    | (.ok (), s) => (.ok (), s)
    | (.error cause, s) => (.error (.write cause), s)

def runProject {σ : Type} (c : Config) (modules : ModuleSet) (steps : Nat) (look : σ → Project)
    (sink : Sink σ) (s : σ) : Except RunFailure Report × σ :=
  let text := diagram c modules steps (projectEntries c modules) (look s)
  next (write sink c.outputPath text s) fun _ s => (.ok ⟨.project, 1, [c.outputPath]⟩, s)

/-- What a run over entries has put together: the lines of the manifest and the paths written. -/
structure Progress where
  manifest : List String
  outputs : List Path

def writeEntries {σ : Type} (c : Config) (modules : ModuleSet) (steps : Nat) (look : σ → Project)
    (sink : Sink σ) : List ModuleId → Progress → σ → Except RunFailure Progress × σ
  | [], done, s => (.ok done, s)
  | e :: entries, done, s =>
    let slug := slugOf c modules e
    let path := c.outputPath.join ⟨fileOf slug⟩
    next (write sink path (diagram c modules steps [e] (look s)) s) fun _ s =>
      writeEntries c modules steps look sink entries
        ⟨done.manifest ++ [manifestLine slug], done.outputs ++ [path]⟩ s

def runEntries {σ : Type} (c : Config) (modules : ModuleSet) (steps : Nat) (look : σ → Project)
    (sink : Sink σ) (entries : List ModuleId) (s : σ) : Except RunFailure Report × σ :=
  next (writeEntries c modules steps look sink entries ⟨[manifestHeader, ""], []⟩ s) fun done s =>
    let path := c.outputPath.join ⟨manifestFile⟩
    next (write sink path (.ok ("\n".intercalate done.manifest)) s) fun _ s =>
      (.ok ⟨.entries, entries.length, done.outputs ++ [path]⟩, s)

def execute {σ : Type} (c : Config) (modules : ModuleSet) (steps : Nat) (look : σ → Project)
    (sink : Sink σ) (s : σ) : Except RunFailure Report × σ :=
  match c.mode with
  | .project => runProject c modules steps look sink s
  | .entries =>
    match modules.select c.entryGlobs with
    | .error cause => (.error (.discovery (.patterns cause)), s)
    | .ok [] => (.ok ⟨.entries, 0, []⟩, s)
    | .ok entries => runEntries c modules steps look sink entries s

/-- Steps granted to a traversal over files, whose modules are not known beforehand: more than a
machine can take. -/
def stepLimit : Nat := Nat.pow 2 60

/-- Runs over the files of a disk, which the sink may change. -/
def overFiles {σ : Type} (c : Config) (disk : σ → Files.Disk) (sink : Sink σ) (s : σ) :
    Except RunFailure Report × σ :=
  match ModuleSet.discover (disk s) c.root c.scanGlobs c.includeDeclarations with
  | .error cause => (.error (.discovery cause), s)
  | .ok modules =>
    let resolver := c.resolver (disk s) modules.root
    execute c modules stepLimit (fun s => (disk s).project resolver) sink s

end Run

end ModuleAtlas
