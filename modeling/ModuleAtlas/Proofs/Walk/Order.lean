import ModuleAtlas.Proofs.Walk.Within

/-!
# Builds and order

Two projects agree when they resolve alike and give each module the same references, in any order
and with any repetitions. Builds over agreeing projects, from entries that are the same up to order
and repetition, reach the same modules; they draw the same graph or both fail.
-/

namespace ModuleAtlas

structure Project.Agrees (p p' : Project) : Prop where
  unreadable : ∀ m, p.references? m = none ↔ p'.references? m = none
  references : ∀ m refs refs', p.references? m = some refs → p'.references? m = some refs' →
    ∀ r, r ∈ refs ↔ r ∈ refs'
  resolve : p.resolve? = p'.resolve?

theorem Project.Agrees.symm {p p' : Project} (h : p.Agrees p') : p'.Agrees p where
  unreadable m := (h.unreadable m).symm
  references m refs refs' hRefs hRefs' r := (h.references m refs' refs hRefs' hRefs r).symm
  resolve := h.resolve.symm

namespace Builder

/-- Builders that differ at most in the order and the repetitions of references. -/
structure Alike (b b' : Builder) : Prop where
  labeler : b.labeler = b'.labeler
  scope : b.scope = b'.scope
  options : b.options = b'.options
  project : b.project.Agrees b'.project

variable {b b' : Builder} {transitive : Bool} {entries entries' : List ModuleId}

namespace Alike

theorem symm (h : b.Alike b') : b'.Alike b where
  labeler := h.labeler.symm
  scope := h.scope.symm
  options := h.options.symm
  project := h.project.symm

theorem follows (h : b.Alike b') {m : ModuleId} {r : Reference} (hFollows : b.Follows m r) :
    b'.Follows m r := by
  obtain ⟨refs, hRefs, hMem, hLook⟩ := hFollows
  rw [h.options] at hLook
  cases hRefs' : b'.project.references? m with
  | none =>
    rw [(h.project.unreadable m).mpr hRefs'] at hRefs
    cases hRefs
  | some refs' =>
    exact ⟨refs', hRefs', (h.project.references m refs refs' hRefs hRefs' r).mp hMem, hLook⟩

theorem within (h : b.Alike b') : b.Within b' where
  labeler := h.labeler
  includeExternal hExternal := h.options ▸ hExternal
  follows := h.follows
  leadsTo hLeads := by
    rw [LeadsTo, Internal, h.project.resolve, h.labeler, h.scope] at hLeads
    exact hLeads
  leadsOut hOut := by
    rw [LeadsOut, h.project.resolve, h.labeler] at hOut
    exact hOut

theorem dangles (h : b.Alike b') {m : ModuleId} {r : Reference} (hDangles : b.Dangles m r) :
    b'.Dangles m r := by
  obtain ⟨hFollows, hPath, hResolve⟩ := hDangles
  rw [h.project.resolve] at hResolve
  exact ⟨h.follows hFollows, hPath, hResolve⟩

theorem blocks (h : b.Alike b') {m : ModuleId} {r : Reference} (hBlocks : b.Blocks m r) :
    b'.Blocks m r :=
  ⟨h.options ▸ hBlocks.1, h.dangles hBlocks.2⟩

theorem reaches (h : b.Alike b') (hEntries : ∀ m ∈ entries, m ∈ entries') {m : ModuleId}
    (hReach : b.Reaches transitive entries m) : b'.Reaches transitive entries' m :=
  h.within.reaches id hEntries hReach

variable (hEntries : ∀ m, m ∈ entries ↔ m ∈ entries')

include hEntries

theorem reaches_iff (h : b.Alike b') (m : ModuleId) :
    b.Reaches transitive entries m ↔ b'.Reaches transitive entries' m :=
  ⟨h.reaches fun m => (hEntries m).mp, h.symm.reaches fun m => (hEntries m).mpr⟩

theorem finite (h : b.Alike b') (hFinite : {m | b.Reaches transitive entries m}.Finite) :
    {m | b'.Reaches transitive entries' m}.Finite :=
  hFinite.subset fun m hReach => (h.reaches_iff hEntries m).mpr hReach

theorem ends_ok (h : b.Alike b') {g : Graph} {result : Except Unresolved Graph}
    (hEnds : b.Ends transitive entries (.ok g)) (hEnds' : b'.Ends transitive entries' result) :
    result = .ok g :=
  ends_ok_of_same h.within h.symm.within (h.reaches_iff hEntries) (fun _ _ => h.symm.blocks) hEnds
    hEnds'

/-- Order and repetition do not decide whether a build fails, nor what it draws. -/
theorem ends_iff (h : b.Alike b') {result result' : Except Unresolved Graph}
    (hEnds : b.Ends transitive entries result) (hEnds' : b'.Ends transitive entries' result')
    (g : Graph) : result = .ok g ↔ result' = .ok g := by
  constructor
  · rintro rfl
    exact h.ends_ok hEntries hEnds hEnds'
  · rintro rfl
    exact h.symm.ends_ok (fun m => (hEntries m).symm) hEnds' hEnds

end Alike

end Builder

end ModuleAtlas
