import ModuleAtlas.Glob.Filter
import ModuleAtlas.Project.Basic
import ModuleAtlas.Sorted

/-!
# Module sets

The modules of one run, in path order, together with the root they belong to. A set can be queried
again with narrower patterns, which is how entry modules are picked.
-/

namespace ModuleAtlas

structure ModuleSet where
  root : Path
  modules : List ModuleId

namespace ModuleSet

/-- The set of the given modules, each once and in path order. -/
def ofModules (root : Path) (modules : List ModuleId) : ModuleSet := ⟨root, sortedDistinct modules⟩

def size (s : ModuleSet) : Nat := s.modules.length

def isEmpty (s : ModuleSet) : Bool := s.modules.isEmpty

/-- The modules below the root whose relative path passes the patterns, in path order. -/
def select (s : ModuleSet) (patterns : List String) :
    Except Glob.InvalidPattern (List ModuleId) :=
  (Glob.Filter.ofPatterns patterns).map fun filter =>
    s.modules.filter fun m => (s.root.below? m.path).any (filter.passes ·.text)

end ModuleSet

end ModuleAtlas
