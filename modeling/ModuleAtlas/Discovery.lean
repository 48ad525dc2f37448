import ModuleAtlas.Ignore.Levels
import ModuleAtlas.ModuleSet

/-!
# Discovery

Discovery finds the modules below a root: the regular files that are reached without passing an
ignored directory, are not ignored themselves, and pass the scan patterns. The root is replaced by
the place that it leads to, so every module found has an absolute path free of links. Links below
the root are not followed.
-/

namespace ModuleAtlas

open Files

inductive DiscoveryFailure where
  | root (path : Path) (cause : Files.Fault)
  | patterns (cause : Glob.InvalidPattern)
deriving DecidableEq

namespace DiscoveryFailure

def causeMessage : DiscoveryFailure → String
  | root _ cause => cause.message
  | patterns cause => cause.causeMessage

def message : DiscoveryFailure → String
  | root path cause => "cannot open project root " ++ path.shown ++ ": " ++ cause.message
  | patterns cause => cause.message

end DiscoveryFailure

namespace Discovery

def declarationSuffix : String := ".d.ts"

def isDeclaration (place : Place) : Bool :=
  place.head?.any fun name => Text.isText name && Text.endsWith name declarationSuffix

/-- Whether a scan from the root arrives at the names below it: nothing on the way is ignored, and
neither is the entry itself. The root is always reached. -/
def reaches (j : Ignore.Judge) (root : Place) : Bool → Place → Bool
  | _, [] => true
  | isDirectory, name :: names =>
    ! j.ignores isDirectory (name :: (names ++ root)) && reaches j root true names

/-- The regular files that a scan from the root arrives at, by their names below it. -/
def files (d : Disk) (root : Place) : List Place :=
  let j := Ignore.Judge.ofDisk d root
  (d.tree.places.filter fun place => d.tree.get? place matches some (.file _)).filterMap
    fun place => (place.below? root).filter (reaches j root false)

end Discovery

/-- The modules below a root whose relative paths pass the patterns. Modules that only declare are
left out unless asked for. -/
def ModuleSet.discover (d : Disk) (root : Path) (patterns : List String) (declarations : Bool) :
    Except DiscoveryFailure ModuleSet :=
  match d.canonical root with
  | .error fault => .error (.root root fault)
  | .ok place =>
    match Glob.Filter.ofPatterns patterns with
    | .error cause => .error (.patterns cause)
    | .ok filter =>
      let kept := (Discovery.files d place).filter fun names =>
        filter.passes (Place.relative names)
          && (declarations || ! Discovery.isDeclaration (names ++ place))
      .ok (.ofModules place.path (kept.map fun names => .ofPath (names ++ place : Place).path))

end ModuleAtlas
