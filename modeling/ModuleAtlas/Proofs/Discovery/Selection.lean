import ModuleAtlas.Proofs.Discovery.Alike
import ModuleAtlas.Proofs.Files.Below
import ModuleAtlas.Proofs.Glob.Filter
import ModuleAtlas.Proofs.ProjectRoot

/-!
# Discovery and selection

Discovery filters files by their names below the root, and a selection filters modules by what is
left of their paths without the root's. For a file below the root these are the same. So discovery
and selection ask one question, which only depends on the members of the pattern list, and a
selection from discovered modules is what both lists discover. Modules are shown by their way from
the root, which is again the same if the names are text; what is shown of other names may pass other
patterns than the names do.
-/

namespace ModuleAtlas

open Files
open Glob (Excluding Extends FirstInvalid Selects Valid)
open Glob.Filter (Reads)

namespace ModuleId

/-- Whether a module only declares, by the name of its file, which must be text. -/
def declares (m : ModuleId) : Bool :=
  m.path.fileName?.any fun name =>
    Text.isText name && Text.endsWith name Discovery.declarationSuffix

end ModuleId

namespace Discovery

/-- A module whose file a scan arrives at. -/
def Found (d : Disk) (base : Place) (m : ModuleId) : Prop :=
  ∃ names ∈ files d base, m.path = Place.path (names ++ base)

/-- The rest of a module's path below a root is selected. -/
def Chosen (root : Path) (patterns : List String) (m : ModuleId) : Prop :=
  ∃ rest, root.below? m.path = some rest ∧ Selects patterns rest.text

theorem Chosen.mono {root : Path} {p q : List String} {m : ModuleId} (hChosen : Chosen root p m)
    (h : ∀ path, Selects p path → Selects q path) : Chosen root q m :=
  let ⟨rest, hRest, hSelects⟩ := hChosen
  ⟨rest, hRest, h _ hSelects⟩

variable {d : Disk} {base names : Place} (hBase : d.tree.get? base = some .directory)

include hBase

variable {m : ModuleId}

section Reads

variable {patterns : List String} {filter : Glob.Filter} (hReads : Reads patterns filter)
  (declarations : Bool)

include hReads

end Reads

end Discovery

namespace ModuleSet

open Discovery (Chosen Found)

/-- The set that discovery answers with for a root and a list of patterns. -/
structure Discovered (d : Disk) (base : Place) (patterns : List String) (declarations : Bool)
    (s : ModuleSet) : Prop where
  root : s.root = base.path
  increasing : Increasing s.modules
  mem_iff : ∀ m, m ∈ s.modules ↔
    Found d base m ∧ Chosen base.path patterns m ∧ (declarations = true ∨ m.declares = false)

section Discover

variable {d : Disk} {root : Path} {base : Place} (hRoot : d.canonical root = .ok base)
  {p p' : List String} {declarations : Bool}

include hRoot

variable (hBase : d.tree.get? base = some .directory)

include hBase

end Discover

section Select

variable {p p' q : List String}

end Select

namespace Discovered

variable {d : Disk} {base : Place} {p q : List String} {declarations : Bool}
  {s t : ModuleSet}

theorem subset (hs : Discovered d base p declarations s) (ht : Discovered d base q declarations t)
    (h : ∀ path, Selects p path → Selects q path) : ∀ m ∈ s.modules, m ∈ t.modules := by
  intro m hm
  obtain ⟨hFound, hChosen, hKind⟩ := (hs.mem_iff m).mp hm
  exact (ht.mem_iff m).mpr ⟨hFound, hChosen.mono h, hKind⟩

end Discovered

end ModuleSet

section Folder

end Folder

section Stray

def strayTree : Option FileTree := do
  let t ← FileTree.empty.put? [] "p" .directory
  t.put? ["p"] "\x00\u00FF.d.ts" (.file (.text ""))

def stray : Disk := ⟨strayTree.getD .empty, []⟩

end Stray

end ModuleAtlas
