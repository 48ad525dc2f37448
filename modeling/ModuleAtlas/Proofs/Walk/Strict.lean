import ModuleAtlas.Proofs.Walk.Order

/-!
# Strict builds

Strictness changes neither what is reachable nor what is drawn. A strict build fails exactly if a
reachable module has a dangling reference, wherever a walk may meet it, and otherwise it draws the
graph of a lenient build.
-/

namespace ModuleAtlas.Builder

def strictly (b : Builder) (strict : Bool) : Builder :=
  { b with options := { b.options with strict := strict } }

variable {b : Builder} {strict transitive : Bool} {entries : List ModuleId}

theorem within_strictly : b.Within (b.strictly strict) := ⟨rfl, id, id, id, id⟩

theorem strictly_within : (b.strictly strict).Within b := ⟨rfl, id, id, id, id⟩

theorem reaches_strictly {m : ModuleId} :
    (b.strictly strict).Reaches transitive entries m ↔ b.Reaches transitive entries m :=
  ⟨strictly_within.reaches id fun _ => id, within_strictly.reaches id fun _ => id⟩

theorem describes_strictly {g : Graph} :
    (b.strictly strict).Describes transitive entries g ↔ b.Describes transitive entries g :=
  ⟨describes_of_same strictly_within within_strictly fun _ => reaches_strictly,
    describes_of_same within_strictly strictly_within fun _ => reaches_strictly.symm⟩

theorem not_blocks_lenient (m : ModuleId) (r : Reference) : ¬ (b.strictly false).Blocks m r := by
  rintro ⟨hStrict, -⟩
  cases hStrict

theorem lenient_ne_error (steps : Nat) (cause : Unresolved) :
    (b.strictly false).build transitive steps entries ≠ some (.error cause) := by
  intro hBuild
  obtain ⟨m, r, -, hBlocks, -⟩ := build_error hBuild
  exact not_blocks_lenient m r hBlocks

theorem strict_culprit {steps : Nat} {cause : Unresolved}
    (h : (b.strictly true).build transitive steps entries = some (.error cause)) :
    ∃ m r, b.Reaches transitive entries m ∧ b.Dangles m r ∧ cause = ⟨m, r.specifier⟩ := by
  obtain ⟨m, r, hReach, hBlocks, hCause⟩ := build_error h
  exact ⟨m, r, reaches_strictly.mp hReach, hBlocks.2, hCause⟩

/-- The first reference that a walk meets is the one reported. -/
theorem strict_reports_first {m : ModuleId} {r : Reference} {refs : List Reference}
    (hInternal : b.Internal m) (hRefs : b.project.references? m = some (r :: refs))
    (hDangles : b.Dangles m r) (steps : Nat) (rest : List ModuleId) :
    (b.strictly true).build transitive (steps + 1) (m :: rest) =
      some (.error ⟨m, r.specifier⟩) := by
  obtain ⟨hFollows, hPath, hResolve⟩ := hDangles
  have hFollow : (b.strictly true).follows r = true := (follows_iff.mp hFollows).2
  have hTarget : (b.strictly true).target m r = .error ⟨m, r.specifier⟩ :=
    target_error_iff.mpr ⟨rfl, hPath, hResolve, rfl⟩
  have hReferences : (b.strictly true).referencesOf m = r :: refs := by
    rw [referencesOf]
    simp [strictly, hRefs]
  have hTake : ¬ (m ∈ ([] : List ModuleId) ∨ ¬ (b.strictly true).Internal m) := by
    rintro (hMem | hNot)
    · cases hMem
    · exact hNot hInternal
  rw [build, traverse, walkEntries_take hTake, walk_new List.not_mem_nil, hReferences]
  dsimp only
  rw [expand_error hFollow hTarget]

section Finite

variable (hFinite : {m | b.Reaches transitive entries m}.Finite)

include hFinite

theorem finite_strictly (strict : Bool) :
    {m | (b.strictly strict).Reaches transitive entries m}.Finite := by
  simpa only [reaches_strictly] using hFinite

theorem lenient_ends : ∃ g, (b.strictly false).Ends transitive entries (.ok g) := by
  obtain ⟨result, hEnds⟩ := exists_ends (finite_strictly hFinite false)
  cases result with
  | ok g => exact ⟨g, hEnds⟩
  | error cause =>
    obtain ⟨steps, hBuild⟩ := hEnds.exists_build
    exact (lenient_ne_error steps cause hBuild).elim

theorem strict_error_iff : (∃ cause, (b.strictly true).Ends transitive entries (.error cause)) ↔
    ∃ m r, b.Reaches transitive entries m ∧ b.Dangles m r := by
  have hBlocks : ∀ m r, (b.strictly true).Blocks m r ↔ b.Dangles m r :=
    fun m r => ⟨And.right, fun hDangles => ⟨rfl, hDangles⟩⟩
  rw [ends_error_iff (finite_strictly hFinite true)]
  simp only [reaches_strictly, hBlocks]

theorem strict_ends_like_lenient (hClear : ¬ ∃ m r, b.Reaches transitive entries m ∧ b.Dangles m r) :
    ∃ g, (b.strictly true).Ends transitive entries (.ok g) ∧
      (b.strictly false).Ends transitive entries (.ok g) := by
  obtain ⟨g, hLenient⟩ := lenient_ends hFinite
  obtain ⟨result, hStrict⟩ := exists_ends (finite_strictly hFinite true)
  cases result with
  | error cause => exact (hClear ((strict_error_iff hFinite).mp ⟨cause, hStrict⟩)).elim
  | ok g' =>
    have hDescribes := describes_strictly.mp hLenient.describes
    have hDescribes' := describes_strictly.mp hStrict.describes
    rw [hDescribes'.unique hDescribes] at hStrict
    exact ⟨g, hStrict, hLenient⟩

end Finite

/-- Strictness is a check of the reachable modules and changes nothing else. Whether it fails
depends on no order; the reference that is reported does, as the first one met counts. -/
theorem strict_checks_reachable_references (b : Builder) (transitive : Bool)
    (entries : List ModuleId) (hFinite : {m | b.Reaches transitive entries m}.Finite) :
    ((∃ cause, (b.strictly true).Ends transitive entries (.error cause)) ↔
      ∃ m r, b.Reaches transitive entries m ∧ b.Dangles m r) ∧
    (∀ steps cause, (b.strictly true).build transitive steps entries = some (.error cause) →
      ∃ m r, b.Reaches transitive entries m ∧ b.Dangles m r ∧ cause = ⟨m, r.specifier⟩) ∧
    ((¬ ∃ m r, b.Reaches transitive entries m ∧ b.Dangles m r) →
      ∃ g, (b.strictly true).Ends transitive entries (.ok g) ∧
        (b.strictly false).Ends transitive entries (.ok g)) ∧
    (∃ g, (b.strictly false).Ends transitive entries (.ok g)) ∧
    (∀ steps cause, (b.strictly false).build transitive steps entries ≠ some (.error cause)) ∧
    (∀ b' entries', b.Alike b' → (∀ m, m ∈ entries ↔ m ∈ entries') →
      ((∃ cause, (b.strictly true).Ends transitive entries (.error cause)) ↔
        ∃ cause, (b'.strictly true).Ends transitive entries' (.error cause))) ∧
    ∀ m r refs, b.Internal m → b.project.references? m = some (r :: refs) → b.Dangles m r →
      ∀ steps rest, (b.strictly true).build transitive (steps + 1) (m :: rest) =
        some (.error ⟨m, r.specifier⟩) := by
  refine ⟨strict_error_iff hFinite, fun _ _ => strict_culprit, strict_ends_like_lenient hFinite,
    lenient_ends hFinite, lenient_ne_error, fun b' entries' hAlike hEntries => ?_,
    fun _ _ _ => strict_reports_first⟩
  rw [strict_error_iff hFinite, strict_error_iff (hAlike.finite hEntries hFinite)]
  constructor
  · rintro ⟨m, r, hReach, hDangles⟩
    exact ⟨m, r, hAlike.reaches (fun m => (hEntries m).mp) hReach, hAlike.dangles hDangles⟩
  · rintro ⟨m, r, hReach, hDangles⟩
    exact ⟨m, r, hAlike.symm.reaches (fun m => (hEntries m).mpr) hReach,
      hAlike.symm.dangles hDangles⟩

section Broken

def brokenModule : ModuleId := ⟨⟨"/p/src/a.ts"⟩⟩

/-- A module with a path specifier that stands for nothing. -/
def broken : MemoryProject where
  modules := [(brokenModule, [⟨"./gone", .static, false⟩])]
  links := []

def brokenBuilder : Builder :=
  ⟨.ofSourceRoot (.ofPath ⟨"/p"⟩) "src/", .ofSettings [] "src/", ⟨false, false, false⟩,
    broken.toProject⟩

theorem broken_fails_when_strict :
    (∃ cause, (brokenBuilder.strictly true).Ends true [brokenModule] (.error cause)) ∧
      ∃ g, (brokenBuilder.strictly false).Ends true [brokenModule] (.ok g) := by
  obtain ⟨hFails, -, -, hLenient, -⟩ := strict_checks_reachable_references brokenBuilder true
    [brokenModule] (finite_reaches_memory (p := broken) rfl ..)
  have hInternal : brokenBuilder.Internal brokenModule := by
    unfold Internal
    decide +kernel
  have hDangles : brokenBuilder.Dangles brokenModule ⟨"./gone", .static, false⟩ :=
    ⟨⟨_, rfl, .head _, by decide⟩, by decide +kernel, by decide⟩
  exact ⟨hFails.mpr ⟨brokenModule, _, .entry (.head _) hInternal, hDangles⟩, hLenient⟩

end Broken

end ModuleAtlas.Builder
