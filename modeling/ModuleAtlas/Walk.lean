import ModuleAtlas.Graph.Basic
import ModuleAtlas.Label
import ModuleAtlas.Project.Basic

/-!
# Walking a project

A build starts at entry modules, expands each module once, and records an edge for each reference
that leads somewhere. Expanded modules are told apart by identity and not by label, so modules that
share a label are each expanded. Pending modules wait on a stack, the last one found on top.

References that lead nowhere are dropped. Only strict builds fail, and only over a path specifier.
-/

namespace ModuleAtlas

structure BuildOptions where
  /-- Show unresolved and vendored targets as leaves labelled by their specifier. -/
  includeExternal : Bool
  /-- Follow references that are declared with `type`. -/
  includeTypeOnly : Bool
  /-- Fail over a path specifier that stands for no module. -/
  strict : Bool
deriving DecidableEq

structure Unresolved where
  importer : ModuleId
  specifier : String
deriving DecidableEq

def Unresolved.message (u : Unresolved) : String :=
  "cannot resolve `" ++ u.specifier ++ "` imported from " ++ u.importer.shown

inductive Target where
  | nowhere
  | leaf (label : String)
  | module (id : ModuleId) (label : String)
deriving DecidableEq

/-- What a build has done so far: the expanded modules, newest first, and the graph. -/
structure Traversal where
  expanded : List ModuleId
  draft : Draft

inductive Walk where
  | done (t : Traversal)
  | failed (cause : Unresolved) (t : Traversal)
  | unfinished

structure Builder where
  labeler : Labeler
  scope : Scope
  options : BuildOptions
  project : Project

namespace Builder

def follows (b : Builder) (r : Reference) : Bool := ! r.typeOnly || b.options.includeTypeOnly

def external (b : Builder) (r : Reference) : Target :=
  if b.options.includeExternal then .leaf r.specifier else .nowhere

def targetOf (b : Builder) (r : Reference) (target : ModuleId) : Target :=
  let root := b.labeler.root
  match root.locate target.path with
  | .external => b.external r
  | .outsideRoot => .nowhere
  | .internal =>
    let relative := root.normalize target.path
    if b.scope.covers relative then .module target (b.labeler.labelRelative relative) else .nowhere

def target (b : Builder) (m : ModuleId) (r : Reference) : Except Unresolved Target :=
  match b.project.resolve? m r.specifier with
  | some target => .ok (b.targetOf r target)
  | none =>
    if b.options.strict && r.isPath then .error ⟨m, r.specifier⟩ else .ok (b.external r)

def expand (b : Builder) (m : ModuleId) (label : String) :
    List Reference → Draft → Except Unresolved (Draft × List ModuleId)
  | [], d => .ok (d, [])
  | r :: rest, d =>
    if b.follows r then
      match b.target m r with
      | .error cause => .error cause
      | .ok .nowhere => expand b m label rest d
      | .ok (.leaf leaf) => expand b m label rest (d.addEdge ⟨label, leaf⟩)
      | .ok (.module id targetLabel) =>
        (expand b m label rest (d.addEdge ⟨label, targetLabel⟩)).map
          fun (d, found) => (d, id :: found)
    else expand b m label rest d

/-- Works off the pending modules; each step takes one of them. -/
def walk (b : Builder) (transitive : Bool) : Nat → List ModuleId → Traversal → Walk
  | _, [], t => .done t
  | 0, _ :: _, _ => .unfinished
  | steps + 1, m :: pending, t =>
    if t.expanded.contains m then walk b transitive steps pending t
    else
      let label := b.labeler.label m.path
      let t : Traversal := ⟨m :: t.expanded, t.draft.addNode label⟩
      match b.project.references? m with
      | none => walk b transitive steps pending t
      | some refs =>
        match b.expand m label refs t.draft with
        | .error cause => .failed cause t
        | .ok (d, found) =>
          let fresh := if transitive then found.filter (! t.expanded.contains ·) else []
          walk b transitive steps (fresh.reverse ++ pending) { t with draft := d }

/-- Walks from each entry that is a module of the project and was not reached before. -/
def walkEntries (b : Builder) (transitive : Bool) (steps : Nat) : List ModuleId → Traversal → Walk
  | [], t => .done t
  | m :: entries, t =>
    if t.expanded.contains m || b.labeler.root.locate m.path ≠ .internal then
      walkEntries b transitive steps entries t
    else
      match b.walk transitive steps [m] t with
      | .done t => walkEntries b transitive steps entries t
      | stopped => stopped

def traverse (b : Builder) (transitive : Bool) (steps : Nat) (entries : List ModuleId) : Walk :=
  b.walkEntries transitive steps entries ⟨[], .empty⟩

/-- The graph of the modules reached from the entries; none if the steps do not suffice. -/
def build (b : Builder) (transitive : Bool) (steps : Nat) (entries : List ModuleId) :
    Option (Except Unresolved Graph) :=
  match b.traverse transitive steps entries with
  | .done t => some (.ok t.draft.toGraph)
  | .failed cause _ => some (.error cause)
  | .unfinished => none

end Builder

end ModuleAtlas
