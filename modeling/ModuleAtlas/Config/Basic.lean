import ModuleAtlas.Diagram
import ModuleAtlas.Dictionary
import ModuleAtlas.Label
import ModuleAtlas.Walk

/-!
# Configuration

The settings of a run. Each has a default, so an empty configuration is valid; what is left open
follows from the rest: a run that names entry patterns is in entries mode, and entries mode follows
references transitively.
-/

namespace ModuleAtlas

inductive Mode where
  /-- One graph of all modules in scope, written to one file. -/
  | project
  /-- One graph for each entry module, written to a directory with a manifest. -/
  | entries
deriving DecidableEq

def configFile : String := "modgraph.toml"

def defaultScanGlobs : List String := ["**/*.\x7bts,tsx\x7d", "!node_modules/**"]

structure Config where
  /-- Relative roots are seen from the working directory. -/
  root : Path := ⟨"."⟩
  mode? : Option Mode := none
  scanGlobs : List String := defaultScanGlobs
  entryGlobs : List String := []
  /-- When empty, everything below the source root is in scope. -/
  scopePrefixes : List String := []
  sourceRoot : String := defaultSourceRoot
  includeExternal : Bool := false
  includeDeclarations : Bool := false
  includeTypeOnly : Bool := false
  transitive? : Option Bool := none
  strict : Bool := false
  /-- Rewritings of specifier beginnings; they win over those of `tsconfig.json`. -/
  aliases : Dictionary String := .empty
  useTsconfig : Bool := true
  /-- Relative to the root. -/
  output? : Option Path := none
  fence : Fence := .markdown
deriving DecidableEq

namespace Config

def mode (c : Config) : Mode :=
  c.mode?.getD (if c.entryGlobs.isEmpty then .project else .entries)

def transitive (c : Config) : Bool := c.transitive?.getD (c.mode == .entries)

def outputPath (c : Config) : Path :=
  c.output?.getD (match c.mode with
    | .project => ⟨"deps.md"⟩
    | .entries => ⟨"graphs/screens"⟩)

def scope (c : Config) : Scope := .ofSettings c.scopePrefixes c.sourceRoot

def buildOptions (c : Config) : BuildOptions := ⟨c.includeExternal, c.includeTypeOnly, c.strict⟩

end Config

end ModuleAtlas
