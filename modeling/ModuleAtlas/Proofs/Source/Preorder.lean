import ModuleAtlas.Source.SyntaxTree

/-!
# The search as a recursion

The loop over a stack of nodes finds what a recursion over the tree finds, which visits a node before
the nodes below it and these from left to right.
-/

namespace ModuleAtlas.Source.SyntaxTree

variable {σ : Type} (read : σ → Option String)

/-! ## The kinds of nodes -/

section Visit

variable {read} {t : SyntaxTree σ}

theorem visit_import (h : t.kind = "import_statement") :
    t.visit read =
      ((t.sourceSpecifier? read).map fun s => ⟨s, .static, t.hasTypeKeyword⟩, []) := by
  rw [visit, if_pos h]

theorem visit_reExport (h : t.kind = "export_statement") {s : String}
    (hSource : t.sourceSpecifier? read = some s) :
    t.visit read = (some ⟨s, .reExport, t.hasTypeKeyword⟩, []) := by
  rw [visit, if_neg (by rw [h]; decide), if_pos h, hSource]

theorem visit_localExport (h : t.kind = "export_statement")
    (hSource : t.sourceSpecifier? read = none) : t.visit read = (none, t.children) := by
  rw [visit, if_neg (by rw [h]; decide), if_pos h, hSource]

theorem visit_call (h : t.kind = "call_expression") :
    t.visit read = ((t.dynamicSpecifier? read).map fun s => ⟨s, .dynamic, false⟩, t.children) := by
  rw [visit, if_neg (by rw [h]; decide), if_neg (by rw [h]; decide), if_pos h]

theorem visit_other (h : t.kind ∉ ["import_statement", "export_statement", "call_expression"]) :
    t.visit read = (none, t.children) := by
  simp only [List.mem_cons, List.not_mem_nil, or_false, not_or] at h
  rw [visit, if_neg h.1, if_neg h.2.1, if_neg h.2.2]

end Visit

/-! ## The recursion -/

/-- An import, or an export with a source: nothing below it is searched. -/
def isPruned (t : SyntaxTree σ) : Bool :=
  t.kind == "import_statement"
    || (t.kind == "export_statement" && (t.sourceSpecifier? read).isSome)

/-- The reference that a node itself makes. -/
def reference? (t : SyntaxTree σ) : Option Reference := (t.visit read).1

theorem visit_snd_eq (t : SyntaxTree σ) :
    (t.visit read).2 = if t.isPruned read then [] else t.children := by
  rw [visit, isPruned]
  by_cases hImport : t.kind = "import_statement"
  · simp [hImport]
  · by_cases hExport : t.kind = "export_statement"
    · cases hSource : t.sourceSpecifier? read <;> simp [hExport]
    · by_cases hCall : t.kind = "call_expression" <;> simp [hImport, hExport, hCall]

mutual

def preorder : SyntaxTree σ → List Reference
  | ⟨kind, isNamed, field?, span, children⟩ =>
    let t : SyntaxTree σ := ⟨kind, isNamed, field?, span, children⟩
    (t.reference? read).toList ++ if t.isPruned read then [] else allPreorder children
termination_by structural t => t

def allPreorder : List (SyntaxTree σ) → List Reference
  | [] => []
  | t :: rest => preorder t ++ allPreorder rest
termination_by structural ts => ts

end

theorem allPreorder_eq (ts : List (SyntaxTree σ)) :
    allPreorder read ts = ts.flatMap (preorder read) := by
  induction ts with
  | nil => rfl
  | cons t ts ih => rw [allPreorder, ih, List.flatMap_cons]

theorem preorder_eq (t : SyntaxTree σ) :
    t.preorder read =
      (t.reference? read).toList ++ (t.visit read).2.flatMap (preorder read) := by
  obtain ⟨kind, isNamed, field?, span, children⟩ := t
  rw [preorder, visit_snd_eq, allPreorder_eq]
  dsimp only
  split
  · rfl
  · rfl

theorem preorder_leaf (kind : String) (isNamed : Bool) (field? : Option String) (span : σ) :
    preorder read ⟨kind, isNamed, field?, span, []⟩ = [] := by
  rw [preorder_eq, reference?, visit_snd_eq, ite_self, List.flatMap_nil, List.append_nil, visit]
  simp [sourceSpecifier?, dynamicSpecifier?, childByField?]

/-- What a search finds from some point on: what it has found, then what the stack holds. -/
theorem Search.run_eq (s : Search σ) :
    s.run read = s.found ++ s.stack.reverse.flatMap (preorder read) := by
  fun_induction run read s with
  | case1 s hEmpty =>
    have hStack : s.stack = [] := by simpa using hEmpty
    simp [hStack]
  | case2 s hNonempty ih =>
    rw [ih]
    obtain ⟨stack, found⟩ := s
    obtain rfl | ⟨rest, t, rfl⟩ := List.eq_nil_or_concat stack
    · exact absurd rfl hNonempty
    · rw [List.concat_eq_append, step_concat]
      simp [preorder_eq read t, reference?]

theorem references_eq_preorder (root : SyntaxTree σ) :
    root.references read = root.preorder read := by
  rw [references, Search.run_eq, Search.start, List.nil_append, List.reverse_singleton,
    List.flatMap_singleton]

end ModuleAtlas.Source.SyntaxTree
