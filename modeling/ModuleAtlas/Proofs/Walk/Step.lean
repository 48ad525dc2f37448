import ModuleAtlas.Proofs.Graph.Draft
import ModuleAtlas.Proofs.Walk.Reach

/-!
# One step of a walk

Expanding a module either stops at one of its dangling references, which only happens in strict
builds, or it draws an edge for each followed reference that points to a label and finds the
modules that these references lead to. A module that cannot be read counts as one without
references.
-/

namespace ModuleAtlas

namespace Target

def label? : Target → Option String
  | nowhere => none
  | leaf label => some label
  | module _ label => some label

def module? : Target → Option ModuleId
  | module id _ => some id
  | _ => none

end Target

def Draft.point (d : Draft) (label : String) (target : Target) : Draft :=
  match target.label? with
  | some targetLabel => d.addEdge ⟨label, targetLabel⟩
  | none => d

namespace Builder

variable {b : Builder}

def Blocks (b : Builder) (m : ModuleId) (r : Reference) : Prop :=
  b.options.strict = true ∧ b.Dangles m r

theorem pointsTo_iff {m : ModuleId} {r : Reference} {l : String} :
    b.PointsTo m r l ↔ (∃ t, b.LeadsTo m r t ∧ b.labeler.label t.path = l) ∨
      (b.options.includeExternal = true ∧ b.LeadsOut m r ∧ r.specifier = l) := by
  constructor
  · intro h
    cases h with
    | module hLeads => exact .inl ⟨_, hLeads, rfl⟩
    | leaf hExternal hOut => exact .inr ⟨hExternal, hOut, rfl⟩
  · rintro (⟨t, hLeads, rfl⟩ | ⟨hExternal, hOut, rfl⟩)
    · exact .module hLeads
    · exact .leaf hExternal hOut

section Resolved

variable {m t : ModuleId} {r : Reference} (hResolve : b.project.resolve? m r.specifier = some t)

include hResolve

theorem leadsTo_iff {t' : ModuleId} :
    b.LeadsTo m r t' ↔
      t = t' ∧ b.Internal t ∧ b.scope.covers (b.labeler.root.normalize t.path) = true := by
  rw [LeadsTo, hResolve]
  constructor
  · rintro ⟨hSame, hInternal, hScope⟩
    cases hSame
    exact ⟨rfl, hInternal, hScope⟩
  · rintro ⟨rfl, hInternal, hScope⟩
    exact ⟨rfl, hInternal, hScope⟩

theorem leadsOut_iff : b.LeadsOut m r ↔ b.labeler.root.locate t.path = .external := by
  simp [LeadsOut, hResolve]

theorem label_targetOf (l : String) :
    (b.targetOf r t).label? = some l ↔ b.PointsTo m r l := by
  simp only [pointsTo_iff, leadsTo_iff hResolve, leadsOut_iff hResolve, targetOf, Internal]
  cases b.labeler.root.locate t.path with
  | external => cases hShown : b.options.includeExternal <;> simp [external, Target.label?, hShown]
  | outsideRoot => simp [Target.label?]
  | internal =>
    cases b.scope.covers (b.labeler.root.normalize t.path) <;> simp [Target.label?, Labeler.label]

theorem module_targetOf (t' : ModuleId) :
    (b.targetOf r t).module? = some t' ↔ b.LeadsTo m r t' := by
  simp only [leadsTo_iff hResolve, targetOf, Internal]
  cases b.labeler.root.locate t.path with
  | external => cases hShown : b.options.includeExternal <;> simp [external, Target.module?, hShown]
  | outsideRoot => simp [Target.module?]
  | internal =>
    cases b.scope.covers (b.labeler.root.normalize t.path) <;> simp [Target.module?]

end Resolved

section Unresolved

variable {m : ModuleId} {r : Reference} (hResolve : b.project.resolve? m r.specifier = none)

include hResolve

theorem label_external (l : String) : (b.external r).label? = some l ↔ b.PointsTo m r l := by
  simp only [pointsTo_iff, LeadsTo, LeadsOut, hResolve]
  cases hShown : b.options.includeExternal <;> simp [external, Target.label?, hShown]

theorem module_external (t : ModuleId) : (b.external r).module? = some t ↔ b.LeadsTo m r t := by
  simp only [LeadsTo, hResolve]
  cases hShown : b.options.includeExternal <;> simp [external, Target.module?, hShown]

end Unresolved

theorem target_ok {m : ModuleId} {r : Reference} {target : Target}
    (h : b.target m r = .ok target) :
    (∀ l, target.label? = some l ↔ b.PointsTo m r l) ∧
      ∀ t, target.module? = some t ↔ b.LeadsTo m r t := by
  rw [Builder.target] at h
  split at h
  · rename_i t hResolve
    cases h
    exact ⟨label_targetOf hResolve, module_targetOf hResolve⟩
  · rename_i hResolve
    split at h
    · cases h
    · cases h
      exact ⟨label_external hResolve, module_external hResolve⟩

theorem target_error_iff {m : ModuleId} {r : Reference} {cause : Unresolved} :
    b.target m r = .error cause ↔
      b.options.strict = true ∧ r.isPath = true ∧ b.project.resolve? m r.specifier = none ∧
        cause = ⟨m, r.specifier⟩ := by
  rw [Builder.target]
  cases b.project.resolve? m r.specifier with
  | some t => simp
  | none =>
    cases b.options.strict <;> cases r.isPath <;> simp [eq_comm]

/-- What expanding the references of a module makes of a draft, and the modules that it finds. -/
structure Expands (b : Builder) (m : ModuleId) (label : String) (refs : List Reference)
    (d d' : Draft) (found : List ModuleId) : Prop where
  labels : label ∈ d.labels → ∀ l, l ∈ d'.labels ↔
    l ∈ d.labels ∨ ∃ r ∈ refs, b.follows r = true ∧ b.PointsTo m r l
  edges : ∀ e, e ∈ d'.edges ↔ e ∈ d.edges ∨ (e.source = label ∧ e.source ≠ e.target ∧
    ∃ r ∈ refs, b.follows r = true ∧ b.PointsTo m r e.target)
  finds : ∀ t, t ∈ found ↔ ∃ r ∈ refs, b.follows r = true ∧ b.LeadsTo m r t
  length : found.length ≤ refs.length
  clear : ∀ r ∈ refs, b.follows r = true → ∀ cause, b.target m r ≠ .error cause

theorem expand_skip {m : ModuleId} {label : String} {r : Reference} {refs : List Reference}
    {d : Draft} (hSkip : b.follows r ≠ true) :
    b.expand m label (r :: refs) d = b.expand m label refs d := by
  rw [expand, if_neg hSkip]

theorem expand_error {m : ModuleId} {label : String} {r : Reference} {refs : List Reference}
    {d : Draft} {cause : Unresolved} (hFollow : b.follows r = true)
    (hTarget : b.target m r = .error cause) : b.expand m label (r :: refs) d = .error cause := by
  rw [expand, if_pos hFollow, hTarget]

theorem expand_ok {m : ModuleId} {label : String} {r : Reference} {refs : List Reference}
    {d : Draft} {target : Target} (hFollow : b.follows r = true)
    (hTarget : b.target m r = .ok target) :
    b.expand m label (r :: refs) d =
      (b.expand m label refs (d.point label target)).map
        fun (d, found) => (d, target.module?.toList ++ found) := by
  rw [expand, if_pos hFollow, hTarget]
  cases target with
  | module id targetLabel => rfl
  | nowhere =>
    cases h : b.expand m label refs d <;>
      simp [Draft.point, Target.label?, Target.module?, h, Except.map]
  | leaf leaf =>
    cases h : b.expand m label refs (d.addEdge ⟨label, leaf⟩) <;>
      simp [Draft.point, Target.label?, Target.module?, h, Except.map]

theorem mem_labels_point {d : Draft} {label l : String} {target : Target} (hLabel : label ∈ d.labels) :
    l ∈ (d.point label target).labels ↔ l ∈ d.labels ∨ target.label? = some l := by
  rw [Draft.point]
  cases target.label? with
  | none => simp
  | some targetLabel =>
    simp only [Draft.mem_labels_addEdge, Option.some.injEq]
    constructor
    · rintro (h | ⟨-, rfl | rfl⟩)
      · exact .inl h
      · exact .inl hLabel
      · exact .inr rfl
    · rintro (h | rfl)
      · exact .inl h
      · by_cases hLoop : label = targetLabel
        · exact .inl (hLoop ▸ hLabel)
        · exact .inr ⟨hLoop, .inr rfl⟩

theorem mem_edges_point {d : Draft} {label : String} {target : Target} {e : Edge} :
    e ∈ (d.point label target).edges ↔ e ∈ d.edges ∨
      (e.source = label ∧ e.source ≠ e.target ∧ target.label? = some e.target) := by
  rw [Draft.point]
  cases target.label? with
  | none => simp
  | some targetLabel =>
    simp only [Draft.mem_edges_addEdge, Option.some.injEq]
    constructor
    · rintro (h | ⟨hProper, rfl⟩)
      · exact .inl h
      · exact .inr ⟨rfl, hProper, rfl⟩
    · rintro (h | ⟨rfl, hProper, rfl⟩)
      · exact .inl h
      · exact .inr ⟨hProper, rfl⟩

theorem expands_nil (m : ModuleId) (label : String) (d : Draft) : b.Expands m label [] d d [] where
  labels := by simp
  edges := by simp
  finds := by simp
  length := le_rfl
  clear := by simp

theorem Expands.skip {m : ModuleId} {label : String} {r : Reference} {refs : List Reference}
    {d d' : Draft} {found : List ModuleId} (h : b.Expands m label refs d d' found)
    (hSkip : b.follows r ≠ true) : b.Expands m label (r :: refs) d d' found where
  labels hLabel l := by simp [h.labels hLabel, hSkip]
  edges e := by simp [h.edges, hSkip]
  finds t := by simp [h.finds, hSkip]
  length := h.length.trans (Nat.le_succ _)
  clear := by simpa [hSkip] using h.clear

theorem Expands.cons {m : ModuleId} {label : String} {r : Reference} {refs : List Reference}
    {d d' : Draft} {found : List ModuleId} {target : Target} (hFollow : b.follows r = true)
    (hTarget : b.target m r = .ok target)
    (h : b.Expands m label refs (d.point label target) d' found) :
    b.Expands m label (r :: refs) d d' (target.module?.toList ++ found) where
  labels hLabel l := by
    have hKept : label ∈ (d.point label target).labels := (mem_labels_point hLabel).mpr (.inl hLabel)
    rw [h.labels hKept, mem_labels_point hLabel, (target_ok hTarget).1]
    simp [hFollow, or_assoc]
  edges e := by
    rw [h.edges, mem_edges_point, (target_ok hTarget).1]
    simp only [List.mem_cons, exists_eq_or_imp, hFollow, true_and, or_assoc, and_or_left]
  finds t := by
    rw [List.mem_append, Option.mem_toList, (target_ok hTarget).2, h.finds]
    simp [hFollow]
  length := by
    have hOne : target.module?.toList.length ≤ 1 := by cases target.module? <;> simp
    have hRest := h.length
    rw [List.length_append, List.length_cons]
    omega
  clear := by
    rintro r' hr' hFollow' cause
    rcases List.mem_cons.mp hr' with rfl | hr'
    · rw [hTarget]
      exact nofun
    · exact h.clear r' hr' hFollow' cause

theorem expand_spec (m : ModuleId) (label : String) (refs : List Reference) (d : Draft) :
    match b.expand m label refs d with
    | .ok (d', found) => b.Expands m label refs d d' found
    | .error cause => ∃ r ∈ refs, b.follows r = true ∧ b.target m r = .error cause := by
  induction refs generalizing d with
  | nil => exact expands_nil m label d
  | cons r refs ih =>
    by_cases hFollow : b.follows r = true
    · cases hTarget : b.target m r with
      | error cause =>
        rw [expand_error hFollow hTarget]
        exact ⟨r, List.mem_cons_self, hFollow, hTarget⟩
      | ok target =>
        have ih := ih (d.point label target)
        rw [expand_ok hFollow hTarget]
        cases hRest : b.expand m label refs (d.point label target) with
        | error cause =>
          rw [hRest] at ih
          obtain ⟨r', hMem, hRest⟩ := ih
          exact ⟨r', List.mem_cons_of_mem _ hMem, hRest⟩
        | ok result =>
          rw [hRest] at ih
          exact ih.cons hFollow hTarget
    · have ih := ih d
      rw [expand_skip hFollow]
      cases hRest : b.expand m label refs d with
      | error cause =>
        rw [hRest] at ih
        obtain ⟨r', hMem, hRest⟩ := ih
        exact ⟨r', List.mem_cons_of_mem _ hMem, hRest⟩
      | ok result =>
        rw [hRest] at ih
        exact ih.skip hFollow

end Builder

end ModuleAtlas
