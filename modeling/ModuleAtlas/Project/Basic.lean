import ModuleAtlas.Path.Basic

/-!
# Projects

A module is identified by its path. Identities are made by cleaning, so that `src/a/../b.ts` and
`src/b.ts` are one module. A reference is one place where a module names another one.

To a traversal a project is two questions: which references a module holds, and which module a
specifier stands for. How the answers are found, in memory or among files, does not matter to it.
-/

namespace ModuleAtlas

/-! ## Modules -/

structure ModuleId where
  path : Path
deriving DecidableEq, Inhabited

namespace ModuleId

def ofPath (p : Path) : ModuleId := ⟨p.clean⟩

def ofText (s : String) : ModuleId := ofPath ⟨s⟩

def text (m : ModuleId) : String := m.path.text

def shown (m : ModuleId) : String := m.path.shown

instance : Ord ModuleId := ⟨fun a b => compare a.path b.path⟩

end ModuleId

/-! ## References -/

inductive ReferenceKind where
  | static
  | reExport
  | dynamic
deriving DecidableEq

structure Reference where
  specifier : String
  kind : ReferenceKind
  /-- Declared with `type`, hence erased when the module is compiled. -/
  typeOnly : Bool
deriving DecidableEq

/-- Whether a specifier starts from the importing module's directory. -/
def isRelativeSpecifier (s : String) : Bool :=
  s == "." || s == ".." || Text.startsWith s "./" || Text.startsWith s "../"

namespace Reference

/-- Whether the specifier is a relative or root-based path rather than the name of a package. -/
def isPath (r : Reference) : Bool :=
  isRelativeSpecifier r.specifier || Text.startsWith r.specifier "/"

end Reference

/-! ## Projects -/

structure Project where
  /-- The references of a module in source order; none if it cannot be read. -/
  references? : ModuleId → Option (List Reference)
  /-- The module that a specifier stands for inside an importing module, if any. -/
  resolve? : ModuleId → String → Option ModuleId

end ModuleAtlas
