import ModuleAtlas.CommandLine.Options
import ModuleAtlas.Files.Change
import ModuleAtlas.Run

/-!
# The program

The program loads the configuration, lets the options of the command line override it, and runs
over the files of a disk. Its outcome is an exit code, the text on standard output, the text of a
failure, and the disk that it leaves. The text of the help and what is said about a misused command
line are left out, and so is the log.
-/

namespace ModuleAtlas.CommandLine

open Files

structure Outcome where
  code : Nat
  stdout : String
  error? : Option String
  disk : Disk

/-- Exit codes. -/
def success : Nat := 0

def failure : Nat := 1

def misused : Nat := 2

def versionText : String := "modgraph 0.1.0\n"

/-! ## Configuration -/

/-- The file that the configuration is loaded from: the one that is named, or else the one of the
root if it is there. -/
def Options.configPath? (o : Options) (d : Disk) : Option Path :=
  match o.config? with
  | some path => some path
  | none =>
    let path := (o.root?.getD ⟨"."⟩).join ⟨configFile⟩
    if d.isFile path then some path else none

/-- The configuration as the options override it. -/
def Options.override (o : Options) (c : Config) : Config :=
  { c with
    root := o.root?.getD c.root
    mode? := o.mode? <|> c.mode?
    entryGlobs := if o.entryGlobs.isEmpty then c.entryGlobs else o.entryGlobs
    scopePrefixes := if o.scopePrefixes.isEmpty then c.scopePrefixes else o.scopePrefixes
    includeExternal := c.includeExternal || o.has .includeExternal
    includeDeclarations := c.includeDeclarations || o.has .includeDeclarations
    includeTypeOnly := c.includeTypeOnly || o.has .includeTypeOnly
    strict := c.strict || o.has .strict
    useTsconfig := c.useTsconfig && ! o.has .noTsconfig
    transitive? := o.transitive? <|> c.transitive?
    output? := o.output? <|> c.output?
    fence := if o.has .stdout then .bare else c.fence }

def Options.configuration (o : Options) (d : Disk) : Except (List String) Config :=
  match o.configPath? d with
  | none => .ok (o.override {})
  | some path =>
    match Config.load d path with
    | .ok c => .ok (o.override c)
    | .error f => .error (["loading " ++ path.shown, f.message] ++ f.causeMessage?.toList)

/-! ## Runs -/

/-- The texts of a failure, from what was attempted to what lies behind it. -/
def failureTexts : RunFailure → List String
  | .discovery f => ["could not enumerate modules", f.message, f.causeMessage]
  | .graph f => ["could not build graph", f.message]
  | .write f => ["could not persist output", f.message, f.cause.message]
  | .unfinished => ["could not build graph", RunFailure.unfinished.message]

/-- The sink that prints texts instead of keeping them. -/
def printer : Sink String :=
  ⟨fun path text printed => (.ok (), printed ++ "%% " ++ path.shown ++ "\n" ++ text ++ "\n\n")⟩

/-- The line that tells of a run whose texts were written to files. -/
def reportLine (c : Config) (r : Report) : String :=
  match r.mode with
  | .project => "Wrote dependency graph to " ++ (c.root.join c.outputPath).shown ++ "\n"
  | .entries =>
    if r.isEmpty then "No entry modules matched; nothing written\n"
    else
      "Wrote " ++ toString r.graphs ++ " entry graphs to " ++ (c.root.join c.outputPath).shown
        ++ "/\n"

def fail (texts : List String) (stdout : String) (d : Disk) : Outcome :=
  ⟨failure, stdout, some (": ".intercalate texts), d⟩

def print (c : Config) (d : Disk) : Outcome :=
  match Run.overFiles c (fun _ => d) printer "" with
  | (.ok _, printed) => ⟨success, printed, none, d⟩
  | (.error f, printed) => fail (failureTexts f) printed d

def write (c : Config) (d : Disk) : Outcome :=
  match Run.overFiles c id (diskSink c.root) d with
  | (.ok r, after) => ⟨success, reportLine c r, none, after⟩
  | (.error f, after) => fail (failureTexts f) "" after

def run (words : List String) (d : Disk) : Outcome :=
  match Request.ofWords words with
  | .misuse => ⟨misused, "", none, d⟩
  | .help => ⟨success, "", none, d⟩
  | .version => ⟨success, versionText, none, d⟩
  | .run o =>
    match o.configuration d with
    | .error texts => fail texts "" d
    | .ok c => if o.has .stdout then print c d else write c d

end ModuleAtlas.CommandLine
