import ModuleAtlas.Proofs.Walk.Step

/-!
# What a walk keeps

A walk only meets reachable modules; each reference of an expanded module leads to a module that is
expanded or pending; and the draft shows exactly what the references of the expanded modules point
to. When nothing is pending any more, the expanded modules are closed under following references.
-/

namespace ModuleAtlas.Builder

variable {b : Builder} {transitive : Bool} {entries : List ModuleId}

def Shows (b : Builder) (m : ModuleId) (l : String) : Prop :=
  l = b.labeler.label m.path ∨ ∃ r, b.Follows m r ∧ b.PointsTo m r l

def Draws (b : Builder) (m : ModuleId) (e : Edge) : Prop :=
  e.source = b.labeler.label m.path ∧ e.source ≠ e.target ∧
    ∃ r, b.Follows m r ∧ b.PointsTo m r e.target

structure Invariant (b : Builder) (transitive : Bool) (entries pending : List ModuleId)
    (t : Traversal) : Prop where
  pending_reached : ∀ m ∈ pending, b.Reaches transitive entries m
  expanded_reached : ∀ m ∈ t.expanded, b.Reaches transitive entries m
  distinct : t.expanded.Nodup
  closed : transitive = true → ∀ m ∈ t.expanded, ∀ r n, b.Follows m r → b.LeadsTo m r n →
    n ∈ t.expanded ∨ n ∈ pending
  clear : ∀ m ∈ t.expanded, ∀ r, ¬ b.Blocks m r
  labels : ∀ l, l ∈ t.draft.labels ↔ ∃ m ∈ t.expanded, b.Shows m l
  edges : ∀ e, e ∈ t.draft.edges ↔ ∃ m ∈ t.expanded, b.Draws m e

/-! ## One step -/

def fresh (transitive : Bool) (expanded found : List ModuleId) : List ModuleId :=
  if transitive then found.filter (! expanded.contains ·) else []

theorem mem_fresh {expanded found : List ModuleId} {m : ModuleId} :
    m ∈ fresh transitive expanded found ↔ transitive = true ∧ m ∈ found ∧ m ∉ expanded := by
  rw [fresh]
  cases transitive <;> simp

theorem length_fresh_le (transitive : Bool) (expanded found : List ModuleId) :
    (fresh transitive expanded found).length ≤ found.length := by
  rw [fresh]
  split
  · exact List.length_filter_le ..
  · exact Nat.zero_le _

theorem walk_known {steps : Nat} {m : ModuleId} {pending : List ModuleId} {t : Traversal}
    (hKnown : m ∈ t.expanded) :
    b.walk transitive (steps + 1) (m :: pending) t = b.walk transitive steps pending t := by
  rw [walk, if_pos (by simpa using hKnown)]

theorem walk_new {steps : Nat} {m : ModuleId} {pending : List ModuleId} {t : Traversal}
    (hNew : m ∉ t.expanded) :
    b.walk transitive (steps + 1) (m :: pending) t =
      let label := b.labeler.label m.path
      match b.expand m label (b.referencesOf m) (t.draft.addNode label) with
      | .error cause => .failed cause ⟨m :: t.expanded, t.draft.addNode label⟩
      | .ok (d, found) =>
        b.walk transitive steps ((fresh transitive (m :: t.expanded) found).reverse ++ pending)
          ⟨m :: t.expanded, d⟩ := by
  rw [walk, if_neg (by simpa using hNew), referencesOf]
  cases b.project.references? m with
  | none => cases transitive <;> rfl
  | some refs => rfl

theorem walkEntries_skip {steps : Nat} {m : ModuleId} {todo : List ModuleId} {t : Traversal}
    (hSkip : m ∈ t.expanded ∨ ¬ b.Internal m) :
    b.walkEntries transitive steps (m :: todo) t = b.walkEntries transitive steps todo t := by
  rw [walkEntries, if_pos (by simpa [Internal] using hSkip)]

theorem walkEntries_take {steps : Nat} {m : ModuleId} {todo : List ModuleId} {t : Traversal}
    (hTake : ¬ (m ∈ t.expanded ∨ ¬ b.Internal m)) :
    b.walkEntries transitive steps (m :: todo) t =
      match b.walk transitive steps [m] t with
      | .done t => b.walkEntries transitive steps todo t
      | stopped => stopped := by
  rw [walkEntries]
  exact if_neg (by simpa [Internal] using hTake)

theorem invariant_init : b.Invariant transitive entries [] ⟨[], .empty⟩ where
  pending_reached := nofun
  expanded_reached := nofun
  distinct := List.nodup_nil
  closed _ := nofun
  clear := nofun
  labels := by simp [Draft.empty]
  edges := by simp [Draft.empty]

theorem Invariant.start {t : Traversal} {m : ModuleId} (h : b.Invariant transitive entries [] t)
    (hMem : m ∈ entries) (hTake : ¬ (m ∈ t.expanded ∨ ¬ b.Internal m)) :
    b.Invariant transitive entries [m] t where
  pending_reached n hn := by
    rw [List.mem_singleton.mp hn]
    exact .entry hMem (not_not.mp (not_or.mp hTake).2)
  expanded_reached := h.expanded_reached
  distinct := h.distinct
  closed hTransitive n hn r n' hFollows hLeads :=
    .inl ((h.closed hTransitive n hn r n' hFollows hLeads).resolve_right List.not_mem_nil)
  clear := h.clear
  labels := h.labels
  edges := h.edges

theorem Invariant.skip {m : ModuleId} {pending : List ModuleId} {t : Traversal}
    (h : b.Invariant transitive entries (m :: pending) t) (hKnown : m ∈ t.expanded) :
    b.Invariant transitive entries pending t where
  pending_reached n hn := h.pending_reached n (.tail _ hn)
  expanded_reached := h.expanded_reached
  distinct := h.distinct
  closed hTransitive n hn r n' hFollows hLeads := by
    rcases h.closed hTransitive n hn r n' hFollows hLeads with hDone | hPending
    · exact .inl hDone
    · rcases List.mem_cons.mp hPending with rfl | hPending
      · exact .inl hKnown
      · exact .inr hPending
  clear := h.clear
  labels := h.labels
  edges := h.edges

theorem Expands.shows {m : ModuleId} {d d' : Draft} {found : List ModuleId}
    (h : b.Expands m (b.labeler.label m.path) (b.referencesOf m)
      (d.addNode (b.labeler.label m.path)) d' found) (l : String) :
    l ∈ d'.labels ↔ l ∈ d.labels ∨ b.Shows m l := by
  rw [h.labels (Draft.mem_labels_addNode.mpr (.inr rfl)), Draft.mem_labels_addNode, or_assoc, Shows]
  simp only [follows_iff, and_assoc]

theorem Expands.draws {m : ModuleId} {d d' : Draft} {found : List ModuleId}
    (h : b.Expands m (b.labeler.label m.path) (b.referencesOf m)
      (d.addNode (b.labeler.label m.path)) d' found) (e : Edge) :
    e ∈ d'.edges ↔ e ∈ d.edges ∨ b.Draws m e := by
  rw [h.edges, Draft.edges_addNode, Draws]
  simp only [follows_iff, and_assoc]

theorem Invariant.expand {m : ModuleId} {pending found : List ModuleId} {t : Traversal} {d : Draft}
    (h : b.Invariant transitive entries (m :: pending) t) (hNew : m ∉ t.expanded)
    (hExpands : b.Expands m (b.labeler.label m.path) (b.referencesOf m)
      (t.draft.addNode (b.labeler.label m.path)) d found) :
    b.Invariant transitive entries ((fresh transitive (m :: t.expanded) found).reverse ++ pending)
      ⟨m :: t.expanded, d⟩ where
  pending_reached n hn := by
    rcases List.mem_append.mp hn with hFresh | hPending
    · obtain ⟨hTransitive, hFound, -⟩ := mem_fresh.mp (List.mem_reverse.mp hFresh)
      obtain ⟨r, hMem, hFollow, hLeads⟩ := (hExpands.finds n).mp hFound
      exact .step hTransitive (h.pending_reached m (.head _)) (follows_iff.mpr ⟨hMem, hFollow⟩) hLeads
    · exact h.pending_reached n (.tail _ hPending)
  expanded_reached n hn := by
    rcases List.mem_cons.mp hn with rfl | hn
    · exact h.pending_reached n (.head _)
    · exact h.expanded_reached n hn
  distinct := List.nodup_cons.mpr ⟨hNew, h.distinct⟩
  -- What `m` leads to is fresh; what an earlier module leads to was pending before, or is `m`.
  closed hTransitive n hn r n' hFollows hLeads := by
    by_cases hKnown : n' ∈ m :: t.expanded
    · exact .inl hKnown
    · right
      rcases List.mem_cons.mp hn with rfl | hn
      · obtain ⟨hMem, hFollow⟩ := follows_iff.mp hFollows
        have hFound := (hExpands.finds n').mpr ⟨r, hMem, hFollow, hLeads⟩
        have hFresh := mem_fresh.mpr ⟨hTransitive, hFound, hKnown⟩
        exact List.mem_append_left _ (List.mem_reverse.mpr hFresh)
      · rcases h.closed hTransitive n hn r n' hFollows hLeads with hDone | hPending
        · exact (hKnown (.tail _ hDone)).elim
        · rcases List.mem_cons.mp hPending with rfl | hPending
          · exact (hKnown (.head _)).elim
          · exact List.mem_append_right _ hPending
  clear n hn r hBlocks := by
    rcases List.mem_cons.mp hn with rfl | hn
    · obtain ⟨hStrict, hFollows, hPath, hResolve⟩ := hBlocks
      obtain ⟨hMem, hFollow⟩ := follows_iff.mp hFollows
      exact hExpands.clear r hMem hFollow _ (target_error_iff.mpr ⟨hStrict, hPath, hResolve, rfl⟩)
    · exact h.clear n hn r hBlocks
  labels l := by
    rw [hExpands.shows, h.labels]
    simp [or_comm]
  edges e := by
    rw [hExpands.draws, h.edges]
    simp [or_comm]

/-! ## Whole walks -/

/-- A walk that ends keeps the invariant, and a walk that fails names a reachable culprit. -/
def Sound (b : Builder) (transitive : Bool) (entries : List ModuleId) (kept : ModuleId → Prop) :
    Walk → Prop
  | .done t => b.Invariant transitive entries [] t ∧ ∀ m, kept m → m ∈ t.expanded
  | .failed cause _ => ∃ m r, b.Reaches transitive entries m ∧ b.Blocks m r ∧
      cause = ⟨m, r.specifier⟩
  | .unfinished => True

theorem Sound.imp {kept kept' : ModuleId → Prop} {w : Walk}
    (h : b.Sound transitive entries kept w) (hKept : ∀ m, kept' m → kept m) :
    b.Sound transitive entries kept' w := by
  cases w with
  | done t => exact ⟨h.1, fun m hm => h.2 m (hKept m hm)⟩
  | failed cause t => exact h
  | unfinished => trivial

theorem walk_sound (steps : Nat) {pending : List ModuleId} {t : Traversal}
    (h : b.Invariant transitive entries pending t) :
    b.Sound transitive entries (fun m => m ∈ pending ∨ m ∈ t.expanded)
      (b.walk transitive steps pending t) := by
  induction steps generalizing pending t with
  | zero =>
    cases pending with
    | nil => exact ⟨h, by simp⟩
    | cons m pending => trivial
  | succ steps ih =>
    cases pending with
    | nil => exact ⟨h, by simp⟩
    | cons m pending =>
      by_cases hKnown : m ∈ t.expanded
      · rw [walk_known hKnown]
        apply (ih (h.skip hKnown)).imp
        rintro n (hPending | hDone)
        · rcases List.mem_cons.mp hPending with rfl | hPending
          · exact .inr hKnown
          · exact .inl hPending
        · exact .inr hDone
      · rw [walk_new hKnown]
        have hSpec := b.expand_spec m (b.labeler.label m.path) (b.referencesOf m)
          (t.draft.addNode (b.labeler.label m.path))
        dsimp only
        split
        · rename_i cause hExpand
          rw [hExpand] at hSpec
          -- Only a strict builder stops, and `m`, which was pending, is reachable.
          obtain ⟨r, hMem, hFollow, hTarget⟩ := hSpec
          obtain ⟨hStrict, hPath, hResolve, rfl⟩ := target_error_iff.mp hTarget
          exact ⟨m, r, h.pending_reached m (.head _),
            ⟨hStrict, follows_iff.mpr ⟨hMem, hFollow⟩, hPath, hResolve⟩, rfl⟩
        · rename_i d found hExpand
          rw [hExpand] at hSpec
          apply (ih (h.expand hKnown hSpec)).imp
          rintro n (hPending | hDone)
          · rcases List.mem_cons.mp hPending with rfl | hPending
            · exact .inr (.head _)
            · exact .inl (List.mem_append_right _ hPending)
          · exact .inr (.tail _ hDone)

theorem walkEntries_sound {steps : Nat} {todo : List ModuleId} {t : Traversal}
    (h : b.Invariant transitive entries [] t) (hTodo : ∀ m ∈ todo, m ∈ entries) :
    b.Sound transitive entries (fun m => (m ∈ todo ∧ b.Internal m) ∨ m ∈ t.expanded)
      (b.walkEntries transitive steps todo t) := by
  induction todo generalizing t with
  | nil => exact ⟨h, by simp⟩
  | cons m todo ih =>
    have hRest : ∀ n ∈ todo, n ∈ entries := fun n hn => hTodo n (.tail _ hn)
    by_cases hSkip : m ∈ t.expanded ∨ ¬ b.Internal m
    · rw [walkEntries_skip hSkip]
      apply (ih h hRest).imp
      rintro n (⟨hMem, hInternal⟩ | hDone)
      · rcases List.mem_cons.mp hMem with rfl | hMem
        · exact .inr (hSkip.resolve_right (not_not_intro hInternal))
        · exact .inl ⟨hMem, hInternal⟩
      · exact .inr hDone
    · rw [walkEntries_take hSkip]
      have hWalk := b.walk_sound steps (h.start (hTodo m (.head _)) hSkip)
      cases hEnd : b.walk transitive steps [m] t with
      | done t' =>
        rw [hEnd] at hWalk
        obtain ⟨hInv, hKept⟩ := hWalk
        apply (ih hInv hRest).imp
        rintro n (⟨hMem, hInternal⟩ | hDone)
        · rcases List.mem_cons.mp hMem with rfl | hMem
          · exact .inr (hKept n (.inl (.head _)))
          · exact .inl ⟨hMem, hInternal⟩
        · exact .inr (hKept n (.inr hDone))
      | failed cause t' =>
        rw [hEnd] at hWalk
        exact hWalk
      | unfinished => trivial

theorem traverse_sound (b : Builder) (transitive : Bool) (steps : Nat) (entries : List ModuleId) :
    b.Sound transitive entries (fun m => m ∈ entries ∧ b.Internal m)
      (b.traverse transitive steps entries) :=
  (walkEntries_sound invariant_init fun _ hm => hm).imp fun _ hm => .inl hm

/-- A traversal that ends has expanded the reachable modules and no others. -/
theorem mem_expanded_iff {steps : Nat} {t : Traversal}
    (h : b.traverse transitive steps entries = .done t) (m : ModuleId) :
    m ∈ t.expanded ↔ b.Reaches transitive entries m := by
  have hSound := b.traverse_sound transitive steps entries
  rw [h] at hSound
  obtain ⟨hInv, hEntries⟩ := hSound
  constructor
  · exact hInv.expanded_reached m
  · intro hReach
    induction hReach with
    | entry hMem hInternal => exact hEntries _ ⟨hMem, hInternal⟩
    | step hTransitive _ hFollows hLeads ih =>
      exact (hInv.closed hTransitive _ ih _ _ hFollows hLeads).resolve_right List.not_mem_nil

end ModuleAtlas.Builder
