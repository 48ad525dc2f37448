import Mathlib.Data.List.Induction
import ModuleAtlas.Project.Memory
import ModuleAtlas.Proofs.Dictionary
import ModuleAtlas.Proofs.Path.Spelling
import ModuleAtlas.Proofs.Sorted

/-!
# Projects put together by calls

The calls that put a project together settle what it answers. Its modules are the importers and the
registered modules, whose references are those that were added to them, in the order of the calls. A
specifier stands for the target that was supplied for it last; a call without a target takes nothing
back.
-/

namespace ModuleAtlas.MemoryProject

/-- A call that adds to a project. Its paths may be spelled in any way. -/
inductive Call where
  | register (path : Path)
  | refer (importer : Path) (added : Reference) (target? : Option Path)
  | imports (importer : Path) (specifier : String) (target : Path)
  | unresolved (importer : Path) (specifier : String)

namespace Call

/-- The module that a call registers. -/
def subject : Call → ModuleId
  | register path | refer path _ _ | imports path _ _ | unresolved path _ => .ofPath path

def added? : Call → Option Reference
  | register _ => none
  | refer _ added _ => some added
  | imports _ specifier _ | unresolved _ specifier => some ⟨specifier, .static, false⟩

def target? : Call → Option ModuleId
  | refer _ _ target? => target?.map .ofPath
  | imports _ _ target => some (.ofPath target)
  | register _ | unresolved _ _ => none

/-- The reference that a call adds to a module. -/
def addedTo? (m : ModuleId) (call : Call) : Option Reference :=
  if call.subject = m then call.added? else none

/-- The target that a call supplies for a specifier in a module. -/
def supplied? (m : ModuleId) (specifier : String) (call : Call) : Option ModuleId :=
  if (call.addedTo? m).any (·.specifier = specifier) then call.target? else none

end Call

def perform (p : MemoryProject) : Call → MemoryProject
  | .register path => p.addModule (.ofPath path)
  | .refer importer added target? =>
    p.addReference (.ofPath importer) added (target?.map .ofPath)
  | .imports importer specifier target =>
    p.addImport (.ofPath importer) specifier (.ofPath target)
  | .unresolved importer specifier => p.addUnresolved (.ofPath importer) specifier

def ofCalls (calls : List Call) : MemoryProject := calls.foldl perform empty

/-- No question tells the projects apart. -/
def SameAnswers (p q : MemoryProject) : Prop :=
  p.moduleIds = q.moduleIds ∧ p.toProject = q.toProject

/-! ## One call -/

theorem lookup_extend (m n : ModuleId) (added : List Reference)
    (modules : List (ModuleId × List Reference)) :
    (extend m added modules).lookup n =
      if n = m then some ((modules.lookup m).getD [] ++ added) else modules.lookup n := by
  induction modules with
  | nil => exact Dictionary.lookup_cons_eq m added [] n
  | cons entry modules ih =>
    obtain ⟨k, refs⟩ := entry
    rw [extend]
    split
    · rename_i hKnown
      subst hKnown
      simp only [Dictionary.lookup_cons_eq, if_pos, Option.getD_some]
      split <;> rfl
    · rename_i hOther
      simp only [Dictionary.lookup_cons_eq, ih, if_neg (Ne.symm hOther)]
      split
      · rename_i hHere
        subst hHere
        rw [if_neg hOther]
      · rfl

theorem mem_keys_extend {m n : ModuleId} {added : List Reference}
    {modules : List (ModuleId × List Reference)} :
    n ∈ (extend m added modules).map Prod.fst ↔ n = m ∨ n ∈ modules.map Prod.fst := by
  induction modules with
  | nil => simp [extend]
  | cons entry modules ih =>
    obtain ⟨k, refs⟩ := entry
    rw [extend]
    split
    · rename_i hKnown
      simp [hKnown]
    · rw [List.map_cons, List.mem_cons, ih, List.map_cons, List.mem_cons]
      exact or_left_comm

section Step

variable (p : MemoryProject) (m n : ModuleId) (r : Reference) (target? : Option ModuleId)

theorem references_addModule : (p.addModule m).references n = p.references n := by
  rw [references, addModule, lookup_extend, references]
  split
  · rename_i hHere
    rw [hHere, List.append_nil]
    rfl
  · rfl

theorem references_addReference :
    (p.addReference m r target?).references n =
      p.references n ++ if m = n then [r] else [] := by
  change ((extend m [r] p.modules).lookup n).getD [] = _
  rw [lookup_extend, references]
  split
  · rename_i hHere
    rw [hHere, if_pos rfl]
    rfl
  · rename_i hOther
    rw [if_neg (Ne.symm hOther), List.append_nil]

theorem resolve?_addReference (specifier : String) :
    (p.addReference m r target?).resolve? n specifier =
      (if m = n ∧ r.specifier = specifier then target? else none).or (p.resolve? n specifier) := by
  cases target? with
  | none =>
    rw [ite_self]
    rfl
  | some target =>
    rw [resolve?, addReference, List.find?_cons]
    by_cases hHere : m = n ∧ r.specifier = specifier
    · simp [hHere]
    · have hApart : (decide (m = n) && decide (r.specifier = specifier)) = false := by
        simpa using hHere
      rw [if_neg hHere]
      simp only [hApart]
      rfl

theorem perform_eq (call : Call) :
    p.perform call =
      match call.added? with
      | none => p.addModule call.subject
      | some r => p.addReference call.subject r call.target? := by
  cases call <;> rfl

theorem references_perform (call : Call) :
    (p.perform call).references m = p.references m ++ (call.addedTo? m).toList := by
  rw [perform_eq, Call.addedTo?]
  cases call.added? with
  | none => rw [references_addModule, ite_self, Option.toList_none, List.append_nil]
  | some r =>
    rw [references_addReference]
    split <;> rfl

theorem resolve?_perform (specifier : String) (call : Call) :
    (p.perform call).resolve? m specifier =
      (call.supplied? m specifier).or (p.resolve? m specifier) := by
  rw [perform_eq, Call.supplied?, Call.addedTo?]
  cases call.added? with
  | none =>
    rw [ite_self]
    rfl
  | some r =>
    rw [resolve?_addReference]
    by_cases hHere : call.subject = m <;> simp [hHere]

theorem mem_moduleIds_perform (call : Call) :
    n ∈ (p.perform call).moduleIds ↔ n ∈ p.moduleIds ∨ call.subject = n := by
  have hKeys : (p.perform call).modules =
      extend call.subject call.added?.toList p.modules := by cases call <;> rfl
  rw [moduleIds, mem_sortedDistinct, hKeys, mem_keys_extend, moduleIds, mem_sortedDistinct, or_comm,
    eq_comm]

end Step

/-! ## All calls -/

section Run

variable (calls : List Call) (m : ModuleId)

theorem ofCalls_concat (call : Call) : ofCalls (calls ++ [call]) = (ofCalls calls).perform call := by
  rw [ofCalls, List.foldl_append]
  rfl

theorem references_ofCalls : (ofCalls calls).references m = calls.filterMap (Call.addedTo? m) := by
  induction calls using List.reverseRecOn with
  | nil => rfl
  | append_singleton calls call ih =>
    rw [ofCalls_concat, references_perform, ih, List.filterMap_append]
    cases hAdded : call.addedTo? m <;> simp [hAdded]

theorem resolve?_ofCalls (specifier : String) :
    (ofCalls calls).resolve? m specifier =
      (calls.filterMap (Call.supplied? m specifier)).getLast? := by
  induction calls using List.reverseRecOn with
  | nil => rfl
  | append_singleton calls call ih =>
    rw [ofCalls_concat, resolve?_perform, ih, List.filterMap_append]
    cases hSupplied : call.supplied? m specifier <;> simp [hSupplied]

theorem mem_moduleIds_ofCalls : m ∈ (ofCalls calls).moduleIds ↔ ∃ call ∈ calls, call.subject = m := by
  induction calls using List.reverseRecOn with
  | nil => simp [ofCalls, moduleIds, mem_sortedDistinct, empty]
  | append_singleton calls call ih =>
    rw [ofCalls_concat, mem_moduleIds_perform, ih]
    simp [or_and_right, exists_or]

theorem increasing_moduleIds_ofCalls : Increasing (ofCalls calls).moduleIds := by
  have hCleaned : ∀ a ∈ (ofCalls calls).modules.map Prod.fst, ∃ path, a = .ofPath path := by
    intro a ha
    obtain ⟨call, -, rfl⟩ := (mem_moduleIds_ofCalls calls a).mp (mem_sortedDistinct.mpr ha)
    cases call <;> exact ⟨_, rfl⟩
  apply increasing_sortedDistinct_of_apart
  intro a ha b hb hSame
  obtain ⟨path, rfl⟩ := hCleaned a ha
  obtain ⟨path', rfl⟩ := hCleaned b hb
  exact ModuleId.ofPath_eq_of_compare hSame

end Run

/-! ## Histories with the same answers -/

theorem toProject_eq_of_calls {calls calls' : List Call}
    (hAdded : ∀ m, calls.filterMap (Call.addedTo? m) = calls'.filterMap (Call.addedTo? m))
    (hSupplied : ∀ m specifier, calls.filterMap (Call.supplied? m specifier) =
      calls'.filterMap (Call.supplied? m specifier)) :
    (ofCalls calls).toProject = (ofCalls calls').toProject := by
  have hReferences : (ofCalls calls).references = (ofCalls calls').references := by
    funext m
    rw [references_ofCalls, references_ofCalls, hAdded]
  have hResolve : (ofCalls calls).resolve? = (ofCalls calls').resolve? := by
    funext m specifier
    rw [resolve?_ofCalls, resolve?_ofCalls, hSupplied]
  rw [toProject, toProject, hReferences, hResolve]

theorem supplied?_eq_none {m : ModuleId} {call : Call} (h : call.addedTo? m = none)
    (specifier : String) : call.supplied? m specifier = none := by
  rw [Call.supplied?, h]
  rfl

theorem filterMap_swap {α β : Type} {f : α → Option β} {a b : α} (earlier later : List α)
    (h : f a = none ∨ f b = none) :
    (earlier ++ a :: b :: later).filterMap f = (earlier ++ b :: a :: later).filterMap f := by
  rw [List.filterMap_append, List.filterMap_append]
  congr 1
  rcases h with hNone | hNone <;> simp [List.filterMap_cons, hNone]

theorem sameAnswers_swap {call call' : Call} (h : call.subject ≠ call'.subject)
    (earlier later : List Call) :
    SameAnswers (ofCalls (earlier ++ call :: call' :: later))
      (ofCalls (earlier ++ call' :: call :: later)) := by
  have hApart : ∀ m, call.addedTo? m = none ∨ call'.addedTo? m = none := by
    intro m
    by_cases hHere : call.subject = m
    · exact .inr (if_neg fun hHere' => h (hHere.trans hHere'.symm))
    · exact .inl (if_neg hHere)
  constructor
  · apply (increasing_moduleIds_ofCalls _).eq_of_mem_iff (increasing_moduleIds_ofCalls _)
    intro m
    simp only [mem_moduleIds_ofCalls, List.mem_append, List.mem_cons, or_left_comm]
  · apply toProject_eq_of_calls
    · exact fun m => filterMap_swap earlier later (hApart m)
    · intro m specifier
      exact filterMap_swap earlier later
        ((hApart m).imp (supplied?_eq_none · specifier) (supplied?_eq_none · specifier))

theorem toProject_without_register (earlier later : List Call) (path : Path) :
    (ofCalls (earlier ++ .register path :: later)).toProject =
      (ofCalls (earlier ++ later)).toProject := by
  have hNothing : ∀ m, (Call.register path).addedTo? m = none := fun m => ite_self _
  apply toProject_eq_of_calls
  · intro m
    rw [List.filterMap_append, List.filterMap_cons_none (hNothing m), ← List.filterMap_append]
  · intro m specifier
    rw [List.filterMap_append, List.filterMap_cons_none (supplied?_eq_none (hNothing m) specifier),
      ← List.filterMap_append]

/-- The answers of a project are read off the calls that put it together. Calls about different
modules can change places, a registration shows in nothing but the modules, and a reference whose
specifier was ever given a target resolves. -/
theorem calls_settle_answers (calls : List Call) :
    let p := ofCalls calls
    (Increasing p.moduleIds ∧ ∀ m, m ∈ p.moduleIds ↔ ∃ call ∈ calls, call.subject = m) ∧
    (∀ path, p.toProject.references? (.ofPath path) =
        some (calls.filterMap (Call.addedTo? (.ofPath path))) ∧
      (.ofPath path ∉ p.moduleIds → p.toProject.references? (.ofPath path) = some [])) ∧
    (∀ path specifier, p.toProject.resolve? (.ofPath path) specifier =
        (calls.filterMap (Call.supplied? (.ofPath path) specifier)).getLast? ∧
      (p.toProject.resolve? (.ofPath path) specifier = none ↔
        ∀ call ∈ calls, call.supplied? (.ofPath path) specifier = none)) ∧
    (∀ earlier call call' later, calls = earlier ++ call :: call' :: later →
      call.subject ≠ call'.subject →
        SameAnswers p (ofCalls (earlier ++ call' :: call :: later))) ∧
    (∀ earlier path later, calls = earlier ++ .register path :: later →
      p.toProject = (ofCalls (earlier ++ later)).toProject) ∧
    ∀ path, ∀ r ∈ p.references (.ofPath path),
      (∃ call ∈ calls, (call.supplied? (.ofPath path) r.specifier).isSome) →
        ∃ target, p.toProject.resolve? (.ofPath path) r.specifier = some target := by
  intro p
  have hModules : ∀ m, m ∈ p.moduleIds ↔ ∃ call ∈ calls, call.subject = m :=
    mem_moduleIds_ofCalls calls
  have hReferences : ∀ m, p.toProject.references? m = some (calls.filterMap (Call.addedTo? m)) :=
    fun m => congrArg some (references_ofCalls calls m)
  have hResolve : ∀ m specifier, p.toProject.resolve? m specifier =
      (calls.filterMap (Call.supplied? m specifier)).getLast? := resolve?_ofCalls calls
  have hNone : ∀ m specifier, p.toProject.resolve? m specifier = none ↔
      ∀ call ∈ calls, call.supplied? m specifier = none := by
    intro m specifier
    rw [hResolve, List.getLast?_eq_none_iff, List.filterMap_eq_nil_iff]
  refine ⟨⟨increasing_moduleIds_ofCalls calls, hModules⟩, fun path => ⟨hReferences _, ?_⟩,
    fun path specifier => ⟨hResolve _ _, hNone _ _⟩, ?_, ?_, ?_⟩
  · intro hUnknown
    rw [hReferences, List.filterMap_eq_nil_iff.mpr]
    exact fun call hCall => if_neg fun hHere => hUnknown ((hModules _).mpr ⟨call, hCall, hHere⟩)
  · rintro earlier call call' later rfl hApart
    exact sameAnswers_swap hApart earlier later
  · rintro earlier path later rfl
    exact toProject_without_register earlier later path
  · rintro path r - ⟨call, hCall, hSupplied⟩
    apply Option.ne_none_iff_exists'.mp
    intro hUnresolved
    rw [(hNone _ _).mp hUnresolved call hCall] at hSupplied
    cases hSupplied

section Sample

/-- One specifier with different targets and without one, in a module spelled in three ways. -/
def sampleCalls : List Call :=
  [.imports ⟨"/p/src/a.ts"⟩ "./b" ⟨"/p/src/x/../b.ts"⟩,
    .register ⟨"/p//lib.ts"⟩,
    .unresolved ⟨"/p/./src/a.ts"⟩ "./b",
    .refer ⟨"/p/src/d/../a.ts"⟩ ⟨"./b", .dynamic, false⟩ (some ⟨"/p/src/c.ts"⟩),
    .refer ⟨"/p/src/a.ts"⟩ ⟨"./b", .reExport, true⟩ none]

theorem last_target_counts :
    (ofCalls sampleCalls).toProject.references? (.ofPath ⟨"/p/src/./a.ts"⟩) =
      some [⟨"./b", .static, false⟩, ⟨"./b", .static, false⟩, ⟨"./b", .dynamic, false⟩,
        ⟨"./b", .reExport, true⟩] ∧
    (ofCalls sampleCalls).toProject.resolve? (.ofPath ⟨"/p/src/./a.ts"⟩) "./b" =
      some (.ofPath ⟨"/p/src/c.ts"⟩) ∧
    (∃ earlier call call' later, sampleCalls = earlier ++ call :: call' :: later ∧
      call.subject ≠ call'.subject ∧
        SameAnswers (ofCalls sampleCalls) (ofCalls (earlier ++ call' :: call :: later))) := by
  obtain ⟨-, hReferences, hResolve, hSwap, -⟩ := calls_settle_answers sampleCalls
  refine ⟨?_, ?_, ?_⟩
  · rw [(hReferences _).1]
    decide +kernel
  · rw [(hResolve _ _).1]
    decide +kernel
  · have hApart : (Call.register ⟨"/p//lib.ts"⟩).subject ≠
        (Call.unresolved ⟨"/p/./src/a.ts"⟩ "./b").subject := by decide +kernel
    exact ⟨[_], _, _, _, rfl, hApart, hSwap [_] _ _ _ rfl hApart⟩

end Sample

end ModuleAtlas.MemoryProject
