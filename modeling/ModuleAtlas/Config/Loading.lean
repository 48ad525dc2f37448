import ModuleAtlas.Config.Reading
import ModuleAtlas.Files.Disk
import ModuleAtlas.TsConfig

/-!
# Loading configuration files

A configuration file that is asked for must be there and valid. The path mapping of a root may be
missing, but a file that is there must be readable text and valid.
-/

namespace ModuleAtlas

inductive ConfigFailure where
  | unreadable (path : Path) (cause : Files.Fault)
  /-- The text is no configuration. -/
  | invalid (path : Path)
  /-- The text is no path mapping. -/
  | json (path : Path) (cause : Json.Fault)
deriving DecidableEq

namespace ConfigFailure

def message : ConfigFailure → String
  | unreadable path cause => "failed to read config " ++ path.shown ++ ": " ++ cause.message
  | invalid path => "invalid config " ++ path.shown
  | json path _ => "invalid JSON in " ++ path.shown

def causeMessage? : ConfigFailure → Option String
  | unreadable _ cause => some cause.message
  | invalid _ | json _ _ => none

end ConfigFailure

open Files

def Config.load (d : Disk) (path : Path) : Except ConfigFailure Config :=
  match d.read path with
  | .error fault => .error (.unreadable path fault)
  | .ok text =>
    match Config.ofText? text with
    | some c => .ok c
    | none => .error (.invalid path)

/-- The path mapping of a root, if it has one. -/
def TsConfig.load (d : Disk) (root : Path) : Except ConfigFailure (Option TsConfig) :=
  let path := root.join ⟨TsConfig.fileName⟩
  if d.isFile path then
    match d.read path with
    | .error fault => .error (.unreadable path fault)
    | .ok text => ((TsConfig.ofText text).map some).mapError (.json path)
  else .ok none

end ModuleAtlas
