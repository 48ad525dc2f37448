import ModuleAtlas.Project.Basic
import ModuleAtlas.Sorted

/-!
# Projects in memory

A project put together call by call. References are kept per importing module in the order they
were added; a link says which module a specifier stands for, and the latest one counts.
-/

namespace ModuleAtlas

structure Link where
  importer : ModuleId
  specifier : String
  target : ModuleId
deriving DecidableEq

structure MemoryProject where
  modules : List (ModuleId × List Reference)
  /-- Links, the newest first. -/
  links : List Link

namespace MemoryProject

def empty : MemoryProject := ⟨[], []⟩

/-- Adds references behind those of a module, which is registered if it was not. -/
def extend (m : ModuleId) (added : List Reference) :
    List (ModuleId × List Reference) → List (ModuleId × List Reference)
  | [] => [(m, added)]
  | (n, refs) :: rest => if n = m then (n, refs ++ added) :: rest else (n, refs) :: extend m added rest

def addModule (p : MemoryProject) (m : ModuleId) : MemoryProject :=
  { p with modules := extend m [] p.modules }

def addReference (p : MemoryProject) (importer : ModuleId) (r : Reference)
    (target? : Option ModuleId) : MemoryProject :=
  let links := match target? with
    | some target => ⟨importer, r.specifier, target⟩ :: p.links
    | none => p.links
  ⟨extend importer [r] p.modules, links⟩

def addImport (p : MemoryProject) (importer : ModuleId) (specifier : String) (target : ModuleId) :
    MemoryProject :=
  p.addReference importer ⟨specifier, .static, false⟩ (some target)

def addUnresolved (p : MemoryProject) (importer : ModuleId) (specifier : String) : MemoryProject :=
  p.addReference importer ⟨specifier, .static, false⟩ none

def moduleIds (p : MemoryProject) : List ModuleId := sortedDistinct (p.modules.map Prod.fst)

/-- The references of a module; a module that was never registered has none. -/
def references (p : MemoryProject) (m : ModuleId) : List Reference := (p.modules.lookup m).getD []

def resolve? (p : MemoryProject) (importer : ModuleId) (specifier : String) : Option ModuleId :=
  (p.links.find? fun l => l.importer = importer && l.specifier = specifier).map Link.target

def toProject (p : MemoryProject) : Project := ⟨fun m => some (p.references m), p.resolve?⟩

/-- Steps that suffice for every traversal: one for the start and one for each reference. -/
def stepBound (p : MemoryProject) : Nat := 1 + (p.modules.flatMap Prod.snd).length

end MemoryProject

end ModuleAtlas
