import ModuleAtlas.Config.Loading
import ModuleAtlas.Project.Basic
import ModuleAtlas.Resolver
import ModuleAtlas.Source.Node

/-!
# Projects among files

On a disk, references are read from the source text of a module, and specifiers stand for files.
-/

namespace ModuleAtlas

open Files

structure UnreadableSource where
  path : Path
  cause : Files.Fault
deriving DecidableEq

def UnreadableSource.message (u : UnreadableSource) : String :=
  "failed to read " ++ u.path.shown ++ ": " ++ u.cause.message

namespace Files.Disk

def references (d : Disk) (path : Path) : Except UnreadableSource (List Reference) :=
  match d.read path with
  | .error fault => .error ⟨path, fault⟩
  | .ok text => .ok (Source.references (Source.Dialect.ofPath path) text)

/-- The file that a candidate path stands for. -/
def probe? (d : Disk) (candidate : Path) : Option Path :=
  Probe.file? d.isFile d.isDirectory candidate

def resolve? (d : Disk) (r : Resolver) (importer : ModuleId) (specifier : String) :
    Option ModuleId :=
  r.resolve? d.isFile d.isDirectory importer specifier

def project (d : Disk) (r : Resolver) : Project :=
  ⟨fun m => (d.references m.path).toOption, d.resolve? r⟩

end Files.Disk

/-- The resolver for a configured root. A path mapping that cannot be loaded counts as none. -/
def Config.resolver (c : Config) (d : Disk) (root : Path) : Resolver :=
  let tsconfig? := if c.useTsconfig then (TsConfig.load d root).toOption.join else none
  .ofSettings root tsconfig? c.aliases

end ModuleAtlas
