import ModuleAtlas.Files.Disk
import ModuleAtlas.Project.Basic
import ModuleAtlas.ProjectRoot
import ModuleAtlas.TsConfig

/-!
# Resolving specifiers

A specifier stands for a file. First it becomes a list of candidate paths, by its form and by the
registered rewritings alone; then each candidate is probed under the spellings that a source file
may have. The first regular file on the way is the answer.
-/

namespace ModuleAtlas

/-! ## Probing -/

namespace Probe

/-- Extensions that a specifier may leave out, in the order of trial. -/
def extensions : List String := ["ts", "tsx", "d.ts", "js", "jsx", "mjs", "json"]

def sourcesOf : String → List String
  | "js" => ["ts", "tsx"]
  | "jsx" => ["tsx"]
  | "mjs" => ["mts"]
  | "cjs" => ["cts"]
  | _ => []

/-- The spellings of a candidate that name it directly: as it is, with the source extensions that
its own stands for, and with each extension added. -/
def spellings (candidate : Path) : List Path :=
  candidate
    :: ((candidate.extension?.map sourcesOf).getD []).map candidate.withExtension
    ++ extensions.map candidate.withSuffix

def indexFiles (dir : Path) : List Path := extensions.map fun ext => dir.join ⟨"index." ++ ext⟩

def paths (isDirectory : Path → Bool) (candidate : Path) : List Path :=
  spellings candidate ++ if isDirectory candidate then indexFiles candidate else []

def file? (isFile isDirectory : Path → Bool) (candidate : Path) : Option Path :=
  (paths isDirectory candidate).find? isFile

end Probe

/-! ## Candidates -/

structure Alias where
  front : String
  replacement : String
deriving DecidableEq

namespace Alias

/-- Longer beginnings come first, equally long ones in text order. -/
def precedes (a b : Alias) : Bool :=
  b.front.utf8ByteSize < a.front.utf8ByteSize
    || (a.front.utf8ByteSize == b.front.utf8ByteSize && a.front ≤ b.front)

def rewrite? (a : Alias) (specifier : String) : Option String :=
  (Text.after? a.front specifier).map (a.replacement ++ ·)

end Alias

structure Resolver where
  root : Path
  aliases : List Alias
  base? : Option Path

namespace Resolver

def ofRoot (root : Path) : Resolver := ⟨root.clean, [], none⟩

/-- Registers rewritings; among equal beginnings the first registered is preferred. -/
def withAliases (r : Resolver) (added : List Alias) : Resolver :=
  { r with aliases := (r.aliases ++ added).mergeSort Alias.precedes }

def withBase (r : Resolver) (base : Path) : Resolver :=
  { r with base? := some (r.root.join base).clean }

/-- The paths that a specifier may stand for inside a module, in the order of trial. -/
def candidates (r : Resolver) (importer : Path) (specifier : String) : List Path :=
  if isRelativeSpecifier specifier then
    [((importer.parent?.getD ⟨""⟩).join ⟨specifier⟩).clean]
  else
    match Text.after? "/" specifier with
    | some rest => [(r.root.join ⟨rest⟩).clean]
    | none =>
      match r.aliases.findSome? (·.rewrite? specifier) with
      | some rewritten => [(r.root.join ⟨rewritten⟩).clean]
      | none =>
        (r.base?.map fun base => (base.join ⟨specifier⟩).clean).toList
          ++ [((r.root.join ⟨vendorMarker⟩).join ⟨specifier⟩).clean]

def resolve? (r : Resolver) (isFile isDirectory : Path → Bool) (importer : ModuleId)
    (specifier : String) : Option ModuleId :=
  ((r.candidates importer.path specifier).findSome? (Probe.file? isFile isDirectory)).map
    ModuleId.ofPath

/-- The resolver of a project: configured rewritings win over those of the path mapping. -/
def ofSettings (root : Path) (tsconfig? : Option TsConfig) (aliases : Dictionary String) :
    Resolver :=
  let r := ofRoot root
  let r := match tsconfig?.bind TsConfig.baseUrl? with
    | some base => r.withBase ⟨base⟩
    | none => r
  let mapped := (tsconfig?.map TsConfig.aliases).getD .empty
  r.withAliases ((mapped.insertAll aliases.entries).entries.map fun e => ⟨e.1, e.2⟩)

end Resolver

end ModuleAtlas
