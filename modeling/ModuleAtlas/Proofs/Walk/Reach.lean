import Mathlib.Data.Set.Finite.Basic
import ModuleAtlas.Project.Memory
import ModuleAtlas.Walk

/-!
# Reachable modules

What a build is about, said without the order in which a walk finds it: the references that are
followed, the modules and labels that they lead to, and the least set of modules that holds the
internal entries and, in transitive builds, the modules that its references lead to.
-/

namespace ModuleAtlas

namespace Builder

variable (b : Builder)

def Internal (m : ModuleId) : Prop := b.labeler.root.locate m.path = .internal

/-- The module can be read and holds the reference, and the reference is not passed over. -/
def Follows (m : ModuleId) (r : Reference) : Prop :=
  ∃ refs, b.project.references? m = some refs ∧ r ∈ refs ∧
    ¬ (r.typeOnly = true ∧ b.options.includeTypeOnly = false)

/-- The reference stands for a module of the project that is in scope. -/
def LeadsTo (m : ModuleId) (r : Reference) (t : ModuleId) : Prop :=
  b.project.resolve? m r.specifier = some t ∧ b.Internal t ∧
    b.scope.covers (b.labeler.root.normalize t.path) = true

/-- The reference stands for no module, or for one of a vendored package. -/
def LeadsOut (m : ModuleId) (r : Reference) : Prop :=
  b.project.resolve? m r.specifier = none ∨
    ∃ t, b.project.resolve? m r.specifier = some t ∧ b.labeler.root.locate t.path = .external

inductive PointsTo (m : ModuleId) (r : Reference) : String → Prop
  | module {t : ModuleId} : b.LeadsTo m r t → PointsTo m r (b.labeler.label t.path)
  | leaf : b.options.includeExternal = true → b.LeadsOut m r → PointsTo m r r.specifier

/-- The least set that holds the internal entries and, in transitive builds, every module that a
followed reference of one of its members leads to. -/
inductive Reaches (transitive : Bool) (entries : List ModuleId) : ModuleId → Prop
  | entry {m : ModuleId} : m ∈ entries → b.Internal m → Reaches transitive entries m
  | step {m t : ModuleId} {r : Reference} : transitive = true → Reaches transitive entries m →
      b.Follows m r → b.LeadsTo m r t → Reaches transitive entries t

/-- A followed path specifier that stands for no module. -/
def Dangles (m : ModuleId) (r : Reference) : Prop :=
  b.Follows m r ∧ r.isPath = true ∧ b.project.resolve? m r.specifier = none

def referencesOf (m : ModuleId) : List Reference := (b.project.references? m).getD []

variable {b : Builder}

theorem follows_eq_true_iff {r : Reference} :
    b.follows r = true ↔ ¬ (r.typeOnly = true ∧ b.options.includeTypeOnly = false) := by
  rw [follows]
  cases r.typeOnly <;> cases b.options.includeTypeOnly <;> simp

theorem follows_iff {m : ModuleId} {r : Reference} :
    b.Follows m r ↔ r ∈ b.referencesOf m ∧ b.follows r = true := by
  rw [Follows, referencesOf, follows_eq_true_iff]
  cases b.project.references? m with
  | none => simp
  | some refs => simp

/-- Reachability only grows with the entries and with what their references lead to. -/
theorem Reaches.mono {b' : Builder} {transitive transitive' : Bool} {entries entries' : List ModuleId}
    (hEntry : ∀ m ∈ entries, b.Internal m → b'.Reaches transitive' entries' m)
    (hStep : ∀ m r t, transitive = true → b.Follows m r → b.LeadsTo m r t →
      transitive' = true ∧ b'.Follows m r ∧ b'.LeadsTo m r t)
    {m : ModuleId} (h : b.Reaches transitive entries m) : b'.Reaches transitive' entries' m := by
  induction h with
  | entry hMem hInternal => exact hEntry _ hMem hInternal
  | step hTransitive _ hFollows hLeads ih =>
    obtain ⟨hTransitive', hFollows', hLeads'⟩ := hStep _ _ _ hTransitive hFollows hLeads
    exact .step hTransitive' ih hFollows' hLeads'

theorem Reaches.internal {transitive : Bool} {entries : List ModuleId} {m : ModuleId}
    (h : b.Reaches transitive entries m) : b.Internal m := by
  cases h with
  | entry _ hInternal => exact hInternal
  | step _ _ _ hLeads => exact hLeads.2.1

theorem Reaches.entry_or_covered {transitive : Bool} {entries : List ModuleId} {m : ModuleId}
    (h : b.Reaches transitive entries m) :
    m ∈ entries ∨ b.scope.covers (b.labeler.root.normalize m.path) = true := by
  cases h with
  | entry hMem _ => exact .inl hMem
  | step _ _ _ hLeads => exact .inr hLeads.2.2

/-- A project in memory has finitely many reachable modules: entries and targets of links. -/
theorem finite_reaches_memory {p : MemoryProject} (hProject : b.project = p.toProject)
    (transitive : Bool) (entries : List ModuleId) :
    {m | b.Reaches transitive entries m}.Finite := by
  apply (List.finite_toSet (entries ++ p.links.map Link.target)).subset
  intro m hm
  cases hm with
  | entry hMem _ => exact List.mem_append_left _ hMem
  | @step _ _ r _ _ _ hLeads =>
    have hResolve := hLeads.1
    rw [hProject] at hResolve
    obtain ⟨link, hFind, rfl⟩ := Option.map_eq_some_iff.mp hResolve
    exact List.mem_append_right _ (List.mem_map_of_mem (List.mem_of_find?_eq_some hFind))

end Builder

end ModuleAtlas
