import Mathlib.Algebra.BigOperators.Group.Finset.Piecewise
import Mathlib.Algebra.Order.BigOperators.Group.Finset
import ModuleAtlas.Proofs.Walk.Invariant

/-!
# Walks end

Steps beyond those that a walk takes change nothing. Over finitely many reachable modules a walk
takes at most one step for its start and one for each reference: expanding a module uses up its
references, and only then can the stack grow.
-/

namespace ModuleAtlas.Builder

variable {b : Builder} {transitive : Bool} {entries : List ModuleId}

/-! ## Spare steps -/

theorem walk_nil (b : Builder) (transitive : Bool) (steps : Nat) (t : Traversal) :
    b.walk transitive steps [] t = .done t := by
  cases steps <;> rfl

theorem walk_spare {steps : Nat} (extra : Nat) {pending : List ModuleId} {t : Traversal}
    (h : b.walk transitive steps pending t ≠ .unfinished) :
    b.walk transitive (steps + extra) pending t = b.walk transitive steps pending t := by
  induction steps generalizing pending t with
  | zero =>
    cases pending with
    | nil => rw [walk_nil, walk_nil]
    | cons m pending => exact (h rfl).elim
  | succ steps ih =>
    cases pending with
    | nil => rw [walk_nil, walk_nil]
    | cons m pending =>
      rw [Nat.add_right_comm]
      by_cases hKnown : m ∈ t.expanded
      · rw [walk_known hKnown] at h ⊢
        rw [walk_known hKnown]
        exact ih h
      · rw [walk_new hKnown] at h ⊢
        rw [walk_new hKnown]
        dsimp only at h ⊢
        split at h
        · rfl
        · exact ih h

theorem walkEntries_spare {steps : Nat} (extra : Nat) {todo : List ModuleId} {t : Traversal}
    (h : b.walkEntries transitive steps todo t ≠ .unfinished) :
    b.walkEntries transitive (steps + extra) todo t = b.walkEntries transitive steps todo t := by
  induction todo generalizing t with
  | nil => rfl
  | cons m todo ih =>
    by_cases hSkip : m ∈ t.expanded ∨ ¬ b.Internal m
    · rw [walkEntries_skip hSkip] at h ⊢
      rw [walkEntries_skip hSkip]
      exact ih h
    · rw [walkEntries_take hSkip] at h ⊢
      rw [walkEntries_take hSkip]
      have hWalk : b.walk transitive steps [m] t ≠ .unfinished := by
        intro hEnd
        rw [hEnd] at h
        exact h rfl
      rw [walk_spare extra hWalk]
      cases hEnd : b.walk transitive steps [m] t with
      | done t' =>
        rw [hEnd] at h
        exact ih h
      | failed cause t' => rfl
      | unfinished => exact (hWalk hEnd).elim

/-! ## Enough steps -/

/-- References of modules that are still to be expanded. -/
def work (b : Builder) (modules : Finset ModuleId) (expanded : List ModuleId) : Nat :=
  ∑ m ∈ modules with m ∉ expanded, (b.referencesOf m).length

theorem work_expand {modules : Finset ModuleId} {expanded : List ModuleId} {m : ModuleId}
    (hMem : m ∈ modules) (hNew : m ∉ expanded) :
    (b.referencesOf m).length + b.work modules (m :: expanded) = b.work modules expanded := by
  have hErase : {n ∈ modules | n ∉ m :: expanded} = {n ∈ modules | n ∉ expanded}.erase m := by
    ext n
    simp only [Finset.mem_filter, Finset.mem_erase, List.mem_cons, not_or]
    tauto
  rw [work, hErase, work]
  exact Finset.add_sum_erase _ (fun n => (b.referencesOf n).length)
    (Finset.mem_filter.mpr ⟨hMem, hNew⟩)

theorem work_le (b : Builder) (modules : Finset ModuleId) (expanded : List ModuleId) :
    b.work modules expanded ≤ ∑ m ∈ modules, (b.referencesOf m).length :=
  Finset.sum_le_sum_of_subset (Finset.filter_subset _ _)

section Finite

variable {modules : Finset ModuleId} (hAll : ∀ m, b.Reaches transitive entries m → m ∈ modules)

include hAll

theorem walk_finishes {steps : Nat} {pending : List ModuleId} {t : Traversal}
    (h : b.Invariant transitive entries pending t)
    (hSteps : pending.length + b.work modules t.expanded ≤ steps) :
    b.walk transitive steps pending t ≠ .unfinished := by
  induction steps generalizing pending t with
  | zero =>
    have hNil : pending = [] := List.eq_nil_of_length_eq_zero (by omega)
    rw [hNil, walk_nil]
    exact nofun
  | succ steps ih =>
    cases pending with
    | nil =>
      rw [walk_nil]
      exact nofun
    | cons m pending =>
      rw [List.length_cons] at hSteps
      by_cases hKnown : m ∈ t.expanded
      · rw [walk_known hKnown]
        exact ih (h.skip hKnown) (by omega)
      · have hSpec := b.expand_spec m (b.labeler.label m.path) (b.referencesOf m)
          (t.draft.addNode (b.labeler.label m.path))
        rw [walk_new hKnown]
        dsimp only
        split
        · exact nofun
        · rename_i d found hExpand
          rw [hExpand] at hSpec
          apply ih (h.expand hKnown hSpec)
          -- Expanding `m` takes its references off the work and puts at most as many modules on top.
          have hWork := b.work_expand (hAll m (h.pending_reached m (.head _))) hKnown
          have hFresh := length_fresh_le transitive (m :: t.expanded) found
          have hFound := hSpec.length
          rw [List.length_append, List.length_reverse]
          dsimp only
          omega

theorem walkEntries_finishes {steps : Nat} {todo : List ModuleId} {t : Traversal}
    (h : b.Invariant transitive entries [] t) (hTodo : ∀ m ∈ todo, m ∈ entries)
    (hSteps : 1 + ∑ m ∈ modules, (b.referencesOf m).length ≤ steps) :
    b.walkEntries transitive steps todo t ≠ .unfinished := by
  induction todo generalizing t with
  | nil => exact nofun
  | cons m todo ih =>
    have hRest : ∀ n ∈ todo, n ∈ entries := fun n hn => hTodo n (.tail _ hn)
    by_cases hSkip : m ∈ t.expanded ∨ ¬ b.Internal m
    · rw [walkEntries_skip hSkip]
      exact ih h hRest
    · rw [walkEntries_take hSkip]
      have hStart := h.start (hTodo m (.head _)) hSkip
      have hEnough : [m].length + b.work modules t.expanded ≤ steps :=
        (Nat.add_le_add_left (b.work_le modules t.expanded) 1).trans hSteps
      have hWalk := walk_finishes hAll hStart hEnough
      have hSound := walk_sound steps hStart
      cases hEnd : b.walk transitive steps [m] t with
      | done t' =>
        rw [hEnd] at hSound
        exact ih hSound.1 hRest
      | failed cause t' => exact nofun
      | unfinished => exact (hWalk hEnd).elim

theorem build_finishes {steps : Nat} (hSteps : 1 + ∑ m ∈ modules, (b.referencesOf m).length ≤ steps) :
    ∃ result, b.build transitive steps entries = some result := by
  have hFinishes : b.walkEntries transitive steps entries ⟨[], .empty⟩ ≠ .unfinished :=
    walkEntries_finishes hAll invariant_init (fun _ hm => hm) hSteps
  rw [build, traverse]
  cases hEnd : b.walkEntries transitive steps entries ⟨[], .empty⟩ with
  | done t => exact ⟨_, rfl⟩
  | failed cause t => exact ⟨_, rfl⟩
  | unfinished => exact (hFinishes hEnd).elim

end Finite

theorem sum_lookup_le (registered : List (ModuleId × List Reference)) (modules : Finset ModuleId) :
    ∑ m ∈ modules, ((registered.lookup m).getD []).length ≤
      (registered.flatMap Prod.snd).length := by
  induction registered with
  | nil => simp
  | cons entry registered ih =>
    obtain ⟨n, refs⟩ := entry
    have hEach : ∀ m, ((((n, refs) :: registered).lookup m).getD []).length ≤
        (if m = n then refs.length else 0) + ((registered.lookup m).getD []).length := by
      intro m
      by_cases hSame : m = n
      · simp [hSame]
      · simp [List.lookup_cons, beq_false_of_ne hSame]
    calc ∑ m ∈ modules, ((((n, refs) :: registered).lookup m).getD []).length
        ≤ ∑ m ∈ modules, ((if m = n then refs.length else 0) +
            ((registered.lookup m).getD []).length) := Finset.sum_le_sum fun m _ => hEach m
      _ = (∑ m ∈ modules, if m = n then refs.length else 0) +
            ∑ m ∈ modules, ((registered.lookup m).getD []).length := Finset.sum_add_distrib
      _ ≤ (((n, refs) :: registered).flatMap Prod.snd).length := by
        rw [List.flatMap_cons, List.length_append]
        apply Nat.add_le_add _ ih
        rw [Finset.sum_ite_eq']
        split
        · exact le_rfl
        · exact Nat.zero_le _

/-- Over a project in memory the registered references bound the steps of every build. -/
theorem build_memory_finishes {p : MemoryProject} (hProject : b.project = p.toProject) :
    ∃ result, b.build transitive p.stepBound entries = some result := by
  have hFinite := finite_reaches_memory hProject transitive entries
  have hAll : ∀ m, b.Reaches transitive entries m → m ∈ hFinite.toFinset :=
    fun m hm => hFinite.mem_toFinset.mpr hm
  apply build_finishes hAll
  have hSum := sum_lookup_le p.modules hFinite.toFinset
  have hReferences : ∀ m, b.referencesOf m = (p.modules.lookup m).getD [] := by
    intro m
    rw [referencesOf, hProject]
    rfl
  simp only [hReferences, MemoryProject.stepBound]
  omega

/-! ## The end of a build -/

/-- Granted enough steps, however many, the build ends with the result. -/
def Ends (b : Builder) (transitive : Bool) (entries : List ModuleId)
    (result : Except Unresolved Graph) : Prop :=
  ∃ enough, ∀ steps, enough ≤ steps → b.build transitive steps entries = some result

theorem build_spare {steps : Nat} (extra : Nat) {result : Except Unresolved Graph}
    (h : b.build transitive steps entries = some result) :
    b.build transitive (steps + extra) entries = some result := by
  have hFinishes : b.walkEntries transitive steps entries ⟨[], .empty⟩ ≠ .unfinished := by
    intro hEnd
    rw [build, traverse, hEnd] at h
    cases h
  rw [build, traverse, walkEntries_spare extra hFinishes]
  exact h

theorem ends_of_build {steps : Nat} {result : Except Unresolved Graph}
    (h : b.build transitive steps entries = some result) : b.Ends transitive entries result := by
  refine ⟨steps, fun steps' hSteps => ?_⟩
  obtain ⟨extra, rfl⟩ := Nat.exists_eq_add_of_le hSteps
  exact build_spare extra h

theorem Ends.exists_build {result : Except Unresolved Graph}
    (h : b.Ends transitive entries result) : ∃ steps, b.build transitive steps entries = some result :=
  let ⟨enough, hEnough⟩ := h
  ⟨enough, hEnough enough le_rfl⟩

theorem Ends.unique {result result' : Except Unresolved Graph}
    (h : b.Ends transitive entries result) (h' : b.Ends transitive entries result') :
    result = result' := by
  obtain ⟨enough, hEnough⟩ := h
  obtain ⟨enough', hEnough'⟩ := h'
  have hSame := hEnough (max enough enough') (le_max_left ..)
  rw [hEnough' _ (le_max_right ..)] at hSame
  exact (Option.some.inj hSame).symm

theorem exists_ends (hFinite : {m | b.Reaches transitive entries m}.Finite) :
    ∃ result, b.Ends transitive entries result := by
  have hAll : ∀ m, b.Reaches transitive entries m → m ∈ hFinite.toFinset :=
    fun m hm => hFinite.mem_toFinset.mpr hm
  obtain ⟨result, hBuild⟩ := build_finishes hAll le_rfl
  exact ⟨result, ends_of_build hBuild⟩

end ModuleAtlas.Builder
