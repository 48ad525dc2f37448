import ModuleAtlas.Proofs.Walk.ReachableGraph

/-!
# What a build costs

A walk can be accounted for: which modules were asked for their references, and how often the loop
went round. Without the account it is the walk itself. A module is asked for its references when it
is expanded and at no other time, and each turn of the loop is paid for by an entry or by a
reference of a module that was expanded.
-/

namespace ModuleAtlas

structure Account where
  /-- The modules asked for their references, the latest first. -/
  asked : List ModuleId
  turns : Nat

namespace Account

def empty : Account := ⟨[], 0⟩

def turn (a : Account) : Account := { a with turns := a.turns + 1 }

end Account

namespace Builder

variable {b : Builder} {transitive : Bool} {entries : List ModuleId}

def ask (b : Builder) (m : ModuleId) (a : Account) : Option (List Reference) × Account :=
  (b.project.references? m, { a with asked := m :: a.asked })

/-- The walk with its account; all it knows of references it knows from asking. -/
def walkCounted (b : Builder) (transitive : Bool) :
    Nat → List ModuleId → Traversal → Account → Walk × Account
  | _, [], t, a => (.done t, a)
  | 0, _ :: _, _, a => (.unfinished, a)
  | steps + 1, m :: pending, t, a =>
    if t.expanded.contains m then walkCounted b transitive steps pending t a.turn
    else
      let label := b.labeler.label m.path
      let t : Traversal := ⟨m :: t.expanded, t.draft.addNode label⟩
      match b.ask m a.turn with
      | (none, a) => walkCounted b transitive steps pending t a
      | (some refs, a) =>
        match b.expand m label refs t.draft with
        | .error cause => (.failed cause t, a)
        | .ok (d, found) =>
          walkCounted b transitive steps ((fresh transitive t.expanded found).reverse ++ pending)
            { t with draft := d } a

def walkEntriesCounted (b : Builder) (transitive : Bool) (steps : Nat) :
    List ModuleId → Traversal → Account → Walk × Account
  | [], t, a => (.done t, a)
  | m :: entries, t, a =>
    if t.expanded.contains m || b.labeler.root.locate m.path ≠ .internal then
      walkEntriesCounted b transitive steps entries t a
    else
      match b.walkCounted transitive steps [m] t a with
      | (.done t, a) => walkEntriesCounted b transitive steps entries t a
      | stopped => stopped

def buildCounted (b : Builder) (transitive : Bool) (steps : Nat) (entries : List ModuleId) :
    Option (Except Unresolved Graph) × Account :=
  match b.walkEntriesCounted transitive steps entries ⟨[], .empty⟩ .empty with
  | (.done t, a) => (some (.ok t.draft.toGraph), a)
  | (.failed cause _, a) => (some (.error cause), a)
  | (.unfinished, a) => (none, a)

/-! ## One turn -/

theorem walkCounted_nil (steps : Nat) (t : Traversal) (a : Account) :
    b.walkCounted transitive steps [] t a = (.done t, a) := by
  cases steps <;> rfl

theorem walkCounted_known {steps : Nat} {m : ModuleId} {pending : List ModuleId} {t : Traversal}
    (hKnown : m ∈ t.expanded) (a : Account) :
    b.walkCounted transitive (steps + 1) (m :: pending) t a =
      b.walkCounted transitive steps pending t a.turn := by
  rw [walkCounted, if_pos (by simpa using hKnown)]

theorem walkCounted_new {steps : Nat} {m : ModuleId} {pending : List ModuleId} {t : Traversal}
    (hNew : m ∉ t.expanded) (a : Account) :
    b.walkCounted transitive (steps + 1) (m :: pending) t a =
      let label := b.labeler.label m.path
      match b.expand m label (b.referencesOf m) (t.draft.addNode label) with
      | .error cause =>
        (.failed cause ⟨m :: t.expanded, t.draft.addNode label⟩, ⟨m :: a.asked, a.turns + 1⟩)
      | .ok (d, found) =>
        b.walkCounted transitive steps
          ((fresh transitive (m :: t.expanded) found).reverse ++ pending) ⟨m :: t.expanded, d⟩
          ⟨m :: a.asked, a.turns + 1⟩ := by
  rw [walkCounted, if_neg (by simpa using hNew), referencesOf, ask]
  cases b.project.references? m with
  | none => cases transitive <;> rfl
  | some refs => rfl

theorem walkEntriesCounted_skip {steps : Nat} {m : ModuleId} {todo : List ModuleId} {t : Traversal}
    (hSkip : m ∈ t.expanded ∨ ¬ b.Internal m) (a : Account) :
    b.walkEntriesCounted transitive steps (m :: todo) t a =
      b.walkEntriesCounted transitive steps todo t a := by
  rw [walkEntriesCounted, if_pos (by simpa [Internal] using hSkip)]

theorem walkEntriesCounted_take {steps : Nat} {m : ModuleId} {todo : List ModuleId} {t : Traversal}
    (hTake : ¬ (m ∈ t.expanded ∨ ¬ b.Internal m)) (a : Account) :
    b.walkEntriesCounted transitive steps (m :: todo) t a =
      match b.walkCounted transitive steps [m] t a with
      | (.done t, a) => b.walkEntriesCounted transitive steps todo t a
      | stopped => stopped := by
  rw [walkEntriesCounted]
  exact if_neg (by simpa [Internal] using hTake)

/-! ## Without the account -/

theorem walkCounted_fst (steps : Nat) (pending : List ModuleId) (t : Traversal) (a : Account) :
    (b.walkCounted transitive steps pending t a).1 = b.walk transitive steps pending t := by
  induction steps generalizing pending t a with
  | zero => cases pending <;> rfl
  | succ steps ih =>
    cases pending with
    | nil => rw [walkCounted_nil, walk_nil]
    | cons m pending =>
      by_cases hKnown : m ∈ t.expanded
      · rw [walkCounted_known hKnown, walk_known hKnown, ih]
      · rw [walkCounted_new hKnown, walk_new hKnown]
        dsimp only
        cases b.expand m (b.labeler.label m.path) (b.referencesOf m)
          (t.draft.addNode (b.labeler.label m.path)) with
        | error cause => rfl
        | ok result => exact ih ..

theorem walkEntriesCounted_fst (steps : Nat) (todo : List ModuleId) (t : Traversal) (a : Account) :
    (b.walkEntriesCounted transitive steps todo t a).1 = b.walkEntries transitive steps todo t := by
  induction todo generalizing t a with
  | nil => rfl
  | cons m todo ih =>
    by_cases hSkip : m ∈ t.expanded ∨ ¬ b.Internal m
    · rw [walkEntriesCounted_skip hSkip, walkEntries_skip hSkip, ih]
    · rw [walkEntriesCounted_take hSkip, walkEntries_take hSkip, ← walkCounted_fst steps [m] t a]
      rcases b.walkCounted transitive steps [m] t a with ⟨_ | _ | _, a'⟩
      · exact ih ..
      · rfl
      · rfl

theorem buildCounted_fst (steps : Nat) (entries : List ModuleId) :
    (b.buildCounted transitive steps entries).1 = b.build transitive steps entries := by
  rw [buildCounted, build, traverse, ← walkEntriesCounted_fst steps entries _ .empty]
  rcases b.walkEntriesCounted transitive steps entries ⟨[], .empty⟩ .empty with ⟨_ | _ | _, a⟩
  · rfl
  · rfl
  · rfl

/-! ## What the account says -/

structure Balanced (b : Builder) (transitive : Bool) (entries : List ModuleId)
    (modules : Finset ModuleId) (budget : Nat) (t : Traversal) (a : Account) : Prop where
  asked : a.asked = t.expanded
  once : t.expanded.Nodup
  reached : ∀ m ∈ t.expanded, b.Reaches transitive entries m
  turns : a.turns + b.work modules t.expanded ≤ budget

def Balances (b : Builder) (transitive : Bool) (entries : List ModuleId)
    (modules : Finset ModuleId) (budget : Nat) : Walk × Account → Prop
  | (.done t, a) => b.Balanced transitive entries modules budget t a
  | (.failed _ t, a) => b.Balanced transitive entries modules budget t a
  | (.unfinished, _) => True

section Finite

variable {modules : Finset ModuleId} (hAll : ∀ m, b.Reaches transitive entries m → m ∈ modules)

include hAll

theorem walkCounted_balances {steps budget : Nat} {pending : List ModuleId} {t : Traversal}
    {a : Account} (h : b.Invariant transitive entries pending t) (hAsked : a.asked = t.expanded)
    (hBudget : a.turns + pending.length + b.work modules t.expanded ≤ budget) :
    b.Balances transitive entries modules budget
      (b.walkCounted transitive steps pending t a) := by
  induction steps generalizing pending t a with
  | zero =>
    cases pending with
    | nil => exact ⟨hAsked, h.distinct, h.expanded_reached, hBudget⟩
    | cons m pending => trivial
  | succ steps ih =>
    cases pending with
    | nil => exact ⟨hAsked, h.distinct, h.expanded_reached, hBudget⟩
    | cons m pending =>
      rw [List.length_cons] at hBudget
      by_cases hKnown : m ∈ t.expanded
      · rw [walkCounted_known hKnown]
        apply ih (a := a.turn) (h.skip hKnown) hAsked
        dsimp only [Account.turn]
        omega
      · have hReach := h.pending_reached m (.head _)
        have hWork := b.work_expand (hAll m hReach) hKnown
        have hSpec := b.expand_spec m (b.labeler.label m.path) (b.referencesOf m)
          (t.draft.addNode (b.labeler.label m.path))
        rw [walkCounted_new hKnown]
        dsimp only
        split
        · refine ⟨by rw [hAsked], List.nodup_cons.mpr ⟨hKnown, h.distinct⟩,
            List.forall_mem_cons.mpr ⟨hReach, h.expanded_reached⟩, ?_⟩
          dsimp only
          omega
        · rename_i d found hExpand
          rw [hExpand] at hSpec
          apply ih (h.expand hKnown hSpec) (by rw [hAsked])
          have hFresh := length_fresh_le transitive (m :: t.expanded) found
          have hFound := hSpec.length
          rw [List.length_append, List.length_reverse]
          dsimp only
          omega

theorem walkEntriesCounted_balances {steps budget : Nat} {todo : List ModuleId} {t : Traversal}
    {a : Account} (h : b.Invariant transitive entries [] t) (hTodo : ∀ m ∈ todo, m ∈ entries)
    (hAsked : a.asked = t.expanded)
    (hBudget : a.turns + todo.length + b.work modules t.expanded ≤ budget) :
    b.Balances transitive entries modules budget
      (b.walkEntriesCounted transitive steps todo t a) := by
  induction todo generalizing t a with
  | nil => exact ⟨hAsked, h.distinct, h.expanded_reached, hBudget⟩
  | cons m todo ih =>
    have hRest : ∀ n ∈ todo, n ∈ entries := fun n hn => hTodo n (.tail _ hn)
    rw [List.length_cons] at hBudget
    by_cases hSkip : m ∈ t.expanded ∨ ¬ b.Internal m
    · rw [walkEntriesCounted_skip hSkip]
      exact ih h hRest hAsked (by omega)
    · have hStart := h.start (hTodo m (.head _)) hSkip
      have hSound := walk_sound steps hStart
      -- The turns that the rest of the entries will need are left out of this walk's budget.
      have hWalk : b.Balances transitive entries modules (budget - todo.length)
          (b.walkCounted transitive steps [m] t a) :=
        walkCounted_balances hAll hStart hAsked (by rw [List.length_singleton]; omega)
      rw [walkEntriesCounted_take hSkip]
      rw [← walkCounted_fst steps [m] t a] at hSound
      rcases hEnd : b.walkCounted transitive steps [m] t a with ⟨_ | _ | _, a'⟩
      · rw [hEnd] at hWalk hSound
        have hTurns := hWalk.turns
        exact ih hSound.1 hRest hWalk.asked (by omega)
      · rw [hEnd] at hWalk
        exact ⟨hWalk.asked, hWalk.once, hWalk.reached, hWalk.turns.trans (Nat.sub_le ..)⟩
      · trivial

end Finite

/-! ## Builds -/

theorem exists_account {modules : Finset ModuleId}
    (hAll : ∀ m, b.Reaches transitive entries m → m ∈ modules) {steps : Nat}
    {result : Except Unresolved Graph} (hBuild : b.build transitive steps entries = some result) :
    ∃ t a, b.buildCounted transitive steps entries = (some result, a) ∧
      b.Balanced transitive entries modules (entries.length + b.work modules []) t a ∧
      ∀ g, result = .ok g → ∀ m, b.Reaches transitive entries m → m ∈ t.expanded := by
  have hBalances : b.Balances transitive entries modules (entries.length + b.work modules [])
      (b.walkEntriesCounted transitive steps entries ⟨[], .empty⟩ .empty) :=
    walkEntriesCounted_balances hAll invariant_init (fun _ hm => hm) rfl
      (by simp only [Account.empty, Nat.zero_add, le_refl])
  have hTraverse : (b.walkEntriesCounted transitive steps entries ⟨[], .empty⟩ .empty).1 =
      b.traverse transitive steps entries :=
    walkEntriesCounted_fst ..
  rw [← b.buildCounted_fst steps entries] at hBuild
  unfold buildCounted at hBuild ⊢
  rcases hEnd : b.walkEntriesCounted transitive steps entries ⟨[], .empty⟩ .empty
    with ⟨t | ⟨cause, t⟩ | _, a⟩
  · rw [hEnd] at hBuild hBalances hTraverse
    cases hBuild
    exact ⟨t, a, rfl, hBalances, fun _ _ m => (mem_expanded_iff hTraverse.symm m).mpr⟩
  · rw [hEnd] at hBuild hBalances
    cases hBuild
    exact ⟨t, a, rfl, hBalances, nofun⟩
  · rw [hEnd] at hBuild
    cases hBuild

/-- Over finitely many reachable modules, as always in memory, every loop of a build ends. A build
asks each of these modules for its references at most once, exactly once if it succeeds, and asks
no other module, whatever labels they share; and its loops go round at most once for each entry and
for each reference of a reachable module. -/
theorem each_reachable_module_asked_once (b : Builder) (transitive : Bool)
    (entries : List ModuleId) :
    (∀ p : MemoryProject, b.project = p.toProject →
      {m | b.Reaches transitive entries m}.Finite) ∧
    ∀ hFinite : {m | b.Reaches transitive entries m}.Finite,
    ∀ steps, 1 + ∑ m ∈ hFinite.toFinset, (b.referencesOf m).length ≤ steps →
      ∃ result account, b.build transitive steps entries = some result ∧
        b.buildCounted transitive steps entries = (some result, account) ∧
        (∀ g, result = .ok g → ∀ m, b.Reaches transitive entries m → account.asked.count m = 1) ∧
        (∀ m, account.asked.count m ≤ 1) ∧
        (∀ m ∈ account.asked, b.Reaches transitive entries m ∧ b.Internal m ∧
          (m ∈ entries ∨ b.scope.covers (b.labeler.root.normalize m.path) = true)) ∧
        account.turns ≤
          entries.length + ∑ m ∈ hFinite.toFinset, (b.referencesOf m).length := by
  refine ⟨fun p hProject => finite_reaches_memory hProject transitive entries, ?_⟩
  intro hFinite steps hSteps
  have hAll : ∀ m, b.Reaches transitive entries m → m ∈ hFinite.toFinset :=
    fun m hm => hFinite.mem_toFinset.mpr hm
  obtain ⟨result, hBuild⟩ := build_finishes hAll hSteps
  obtain ⟨t, account, hCounted, hBalanced, hComplete⟩ := exists_account hAll hBuild
  refine ⟨result, account, hBuild, hCounted, ?_, ?_, ?_, ?_⟩
  · intro g hOk m hReach
    rw [hBalanced.asked]
    exact List.count_eq_one_of_mem hBalanced.once (hComplete g hOk m hReach)
  · intro m
    rw [hBalanced.asked]
    exact List.nodup_iff_count_le_one.mp hBalanced.once m
  · intro m hm
    rw [hBalanced.asked] at hm
    have hReach := hBalanced.reached m hm
    exact ⟨hReach, hReach.internal, hReach.entry_or_covered⟩
  · have hTurns := hBalanced.turns
    have hWork := b.work_le hFinite.toFinset []
    omega

section Twins

def twinsStart : ModuleId := ⟨⟨"/p/src/a.ts"⟩⟩

def olderTwin : ModuleId := ⟨⟨"/p/src/b.ts"⟩⟩

def youngerTwin : ModuleId := ⟨⟨"/p/src/b.tsx"⟩⟩

/-- Two modules that share a label, and each is referred to more than once. -/
def twins : MemoryProject where
  modules := [(twinsStart, [⟨"./b", .static, false⟩, ⟨"./b.tsx", .static, false⟩]),
    (olderTwin, [⟨"./b.tsx", .static, false⟩, ⟨"./a", .static, false⟩]),
    (youngerTwin, [⟨"./b", .static, false⟩])]
  links := [⟨twinsStart, "./b", olderTwin⟩, ⟨twinsStart, "./b.tsx", youngerTwin⟩,
    ⟨olderTwin, "./b.tsx", youngerTwin⟩, ⟨olderTwin, "./a", twinsStart⟩,
    ⟨youngerTwin, "./b", olderTwin⟩]

def twinsBuilder : Builder :=
  ⟨.ofSourceRoot (.ofPath ⟨"/p"⟩) "src/", .ofSettings [] "src/", ⟨false, false, false⟩,
    twins.toProject⟩

theorem twins_reached :
    twinsBuilder.Reaches true [twinsStart] olderTwin ∧
      twinsBuilder.Reaches true [twinsStart] youngerTwin := by
  have hStart : twinsBuilder.Internal twinsStart := by
    unfold Internal
    decide +kernel
  have hOlder : twinsBuilder.LeadsTo twinsStart ⟨"./b", .static, false⟩ olderTwin := by
    unfold LeadsTo Internal
    decide +kernel
  have hYounger : twinsBuilder.LeadsTo twinsStart ⟨"./b.tsx", .static, false⟩ youngerTwin := by
    unfold LeadsTo Internal
    decide +kernel
  constructor
  · exact .step rfl (.entry (.head _) hStart) ⟨_, rfl, .head _, by decide⟩ hOlder
  · exact .step rfl (.entry (.head _) hStart) ⟨_, rfl, .tail _ (.head _), by decide⟩ hYounger

theorem twins_each_asked_once :
    olderTwin ≠ youngerTwin ∧
    twinsBuilder.labeler.label olderTwin.path = twinsBuilder.labeler.label youngerTwin.path ∧
    ∃ steps g account,
      twinsBuilder.buildCounted true steps [twinsStart] = (some (.ok g), account) ∧
        account.asked.count olderTwin = 1 ∧ account.asked.count youngerTwin = 1 := by
  refine ⟨by decide, by decide +kernel, ?_⟩
  obtain ⟨hMemory, hBuild⟩ := each_reachable_module_asked_once twinsBuilder true [twinsStart]
  obtain ⟨result, account, hResult, hCounted, hOnce, -⟩ := hBuild (hMemory twins rfl) _ le_rfl
  cases result with
  | error cause =>
    obtain ⟨m, r, -, ⟨hStrict, -⟩, -⟩ := build_error hResult
    cases hStrict
  | ok g =>
    exact ⟨_, g, account, hCounted, hOnce g rfl _ twins_reached.1, hOnce g rfl _ twins_reached.2⟩

end Twins

end Builder

end ModuleAtlas
