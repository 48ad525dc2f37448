import Mathlib.Data.List.Lex
import Mathlib.Logic.Function.Iterate
import ModuleAtlas.Proofs.Source.Preorder

/-!
# The search for references

The search works off a stack. It visits the nodes of a tree in the order in which they stand in the
text, each node before the nodes below it, and each of them once: all but those below an import, or
below an export with a source. So it finds what a recursion over the tree finds.
-/

namespace ModuleAtlas.Source

variable {σ : Type} (read : σ → Option String)

/-- A node of a tree, and the way to it: the place among its siblings of each node on the way. -/
structure Site (σ : Type) where
  address : List Nat
  tree : SyntaxTree σ

namespace Site

/-- The sites below one that are searched. -/
def parts (s : Site σ) : List (Site σ) :=
  (s.tree.visit read).2.zipIdx.map fun p => ⟨s.address ++ [p.2], p.1⟩

def references (s : Site σ) : List Reference := (s.tree.reference? read).toList

variable {read} {s t : Site σ}

theorem map_tree_parts (s : Site σ) : (s.parts read).map tree = (s.tree.visit read).2 := by
  rw [parts, List.map_map]
  exact List.zipIdx_map_fst 0 (s.tree.visit read).2

theorem mem_parts : t ∈ s.parts read ↔ ∃ i, (s.tree.visit read).2[i]? = some t.tree ∧
    t.address = s.address ++ [i] := by
  constructor
  · intro hPart
    obtain ⟨⟨n, i⟩, hAt, rfl⟩ := List.mem_map.mp hPart
    exact ⟨i, List.mem_zipIdx_iff_getElem?.mp hAt, rfl⟩
  · rintro ⟨i, hAt, hAddress⟩
    refine List.mem_map.mpr ⟨(t.tree, i), List.mem_zipIdx_iff_getElem?.mpr hAt, ?_⟩
    rw [← hAddress]

variable (read) in
/-- The sites of a search in the order in which it takes them off its stack. -/
def visits : List (Site σ) → List (Site σ)
  | [] => []
  | s :: stack => s :: visits (s.parts read ++ stack)
termination_by stack => SyntaxTree.totalSize (stack.map tree)
decreasing_by
  have hLess := SyntaxTree.totalSize_visit_lt read s.tree
  rw [List.map_append, map_tree_parts, SyntaxTree.totalSize_append, List.map_cons,
    SyntaxTree.totalSize]
  omega

theorem visits_append (stack rest : List (Site σ)) :
    visits read (stack ++ rest) = visits read stack ++ visits read rest := by
  fun_induction visits read stack with
  | case1 => rfl
  | case2 s stack ih => rw [List.cons_append, visits, ← List.append_assoc, ih, List.cons_append]

theorem visits_eq_nil {stack : List (Site σ)} : visits read stack = [] ↔ stack = [] := by
  cases stack <;> simp [visits]

theorem flatMap_preorder (stack : List (Site σ)) :
    stack.flatMap (fun s => s.tree.preorder read) = (visits read stack).flatMap (references read) := by
  fun_induction visits read stack with
  | case1 => rfl
  | case2 s stack ih =>
    rw [List.flatMap_cons, List.flatMap_cons, ← ih, List.flatMap_append, SyntaxTree.preorder_eq,
      ← map_tree_parts, List.flatMap_map, List.append_assoc]
    rfl

/-! ## The order of the visits -/

/-- Whatever lies at or below the one comes before whatever lies at or below the other. -/
def Before (s t : Site σ) : Prop := ∀ x y, s.address ++ x < t.address ++ y

theorem exists_of_mem_visits {stack : List (Site σ)} (h : t ∈ visits read stack) :
    ∃ s ∈ stack, ∃ x, t.address = s.address ++ x := by
  fun_induction visits read stack with
  | case1 => cases h
  | case2 s stack ih =>
    rcases List.mem_cons.mp h with rfl | hLater
    · exact ⟨t, List.mem_cons_self, [], (List.append_nil _).symm⟩
    · obtain ⟨u, hu, x, hx⟩ := ih hLater
      rcases List.mem_append.mp hu with hPart | hPending
      · obtain ⟨i, -, hi⟩ := mem_parts.mp hPart
        exact ⟨s, List.mem_cons_self, i :: x, by rw [hx, hi, List.append_assoc]; rfl⟩
      · exact ⟨u, List.mem_cons_of_mem s hPending, x, hx⟩

theorem pairwise_parts (s : Site σ) : (s.parts read).Pairwise Before := by
  rw [parts, List.pairwise_map]
  have hPlaces : ((s.tree.visit read).2.zipIdx.map Prod.snd).Pairwise (· < ·) := by
    rw [List.zipIdx_map_snd]
    exact List.pairwise_lt_range'
  refine (List.pairwise_map.mp hPlaces).imp fun hLess x y => ?_
  rw [List.append_assoc, List.append_assoc]
  exact List.append_left_lt (List.cons_lt_cons_iff.mpr (.inl hLess))

theorem Before.part (h : Before s t) {u : Site σ} (hPart : u ∈ s.parts read) : Before u t := by
  obtain ⟨i, -, hi⟩ := mem_parts.mp hPart
  intro x y
  rw [hi, List.append_assoc]
  exact h ([i] ++ x) y

theorem lt_of_mem_parts (h : t ∈ s.parts read) (x : List Nat) : s.address < t.address ++ x := by
  obtain ⟨i, -, hi⟩ := mem_parts.mp h
  have hLess : s.address ++ [] < s.address ++ i :: x := List.append_left_lt (List.nil_lt_cons i x)
  rw [List.append_nil] at hLess
  rwa [hi, List.append_assoc]

theorem pairwise_visits {stack : List (Site σ)} (h : stack.Pairwise Before) :
    ((visits read stack).map address).Pairwise (· < ·) := by
  fun_induction visits read stack with
  | case1 => exact .nil
  | case2 s stack ih =>
    obtain ⟨hFirst, hPending⟩ := List.pairwise_cons.mp h
    rw [List.map_cons, List.pairwise_cons]
    constructor
    · intro a ha
      obtain ⟨t, ht, rfl⟩ := List.mem_map.mp ha
      obtain ⟨u, hu, x, hx⟩ := exists_of_mem_visits ht
      rw [hx]
      rcases List.mem_append.mp hu with hPart | hLater
      · exact lt_of_mem_parts hPart x
      · have hBefore := hFirst u hLater [] x
        rwa [List.append_nil] at hBefore
    · refine ih (List.pairwise_append.mpr ⟨s.pairwise_parts, hPending, ?_⟩)
      intro t hPart u hu
      exact (hFirst u hu).part hPart

end Site

/-- The nodes of a tree that are not below a pruned one, with the ways to them. -/
inductive SyntaxTree.Reached (root : SyntaxTree σ) : List Nat → SyntaxTree σ → Prop where
  | root : Reached root [] root
  | child {address : List Nat} {n m : SyntaxTree σ} {i : Nat} (above : Reached root address n)
      (isOpen : n.isPruned read = false) (here : n.children[i]? = some m) :
      Reached root (address ++ [i]) m

namespace Site

variable {read} {s t : Site σ}

theorem getElem?_visit {n m : SyntaxTree σ} {i : Nat} :
    (n.visit read).2[i]? = some m ↔ n.isPruned read = false ∧ n.children[i]? = some m := by
  rw [SyntaxTree.visit_snd_eq]
  cases n.isPruned read <;> simp

theorem reached_part {root : SyntaxTree σ} (h : root.Reached read s.address s.tree)
    (hPart : t ∈ s.parts read) : root.Reached read t.address t.tree := by
  obtain ⟨i, hAt, hAddress⟩ := mem_parts.mp hPart
  obtain ⟨hOpen, hChild⟩ := getElem?_visit.mp hAt
  rw [hAddress]
  exact h.child hOpen hChild

theorem mem_visits_of_mem {stack : List (Site σ)} (h : s ∈ stack) : s ∈ visits read stack := by
  obtain ⟨above, below, rfl⟩ := List.append_of_mem h
  rw [visits_append, visits]
  exact List.mem_append_right _ List.mem_cons_self

theorem mem_visits_of_mem_parts {stack : List (Site σ)} (h : s ∈ visits read stack)
    (hPart : t ∈ s.parts read) : t ∈ visits read stack := by
  fun_induction visits read stack with
  | case1 => cases h
  | case2 u stack ih =>
    apply List.mem_cons_of_mem
    rcases List.mem_cons.mp h with rfl | hLater
    · exact mem_visits_of_mem (List.mem_append_left stack hPart)
    · exact ih hLater

theorem reached_of_mem_visits {root : SyntaxTree σ} {stack : List (Site σ)}
    (hStack : ∀ s ∈ stack, root.Reached read s.address s.tree) (h : t ∈ visits read stack) :
    root.Reached read t.address t.tree := by
  fun_induction visits read stack with
  | case1 => cases h
  | case2 s stack ih =>
    rw [List.forall_mem_cons] at hStack
    rcases List.mem_cons.mp h with rfl | hLater
    · exact hStack.1
    · exact ih (List.forall_mem_append.mpr ⟨fun u hPart => reached_part hStack.1 hPart, hStack.2⟩)
        hLater

theorem mem_visits_of_reached {root n : SyntaxTree σ} {address : List Nat}
    (h : root.Reached read address n) : ⟨address, n⟩ ∈ visits read [⟨[], root⟩] := by
  induction h with
  | root => exact mem_visits_of_mem List.mem_cons_self
  | child above isOpen here ih =>
    exact mem_visits_of_mem_parts ih (mem_parts.mpr ⟨_, getElem?_visit.mpr ⟨isOpen, here⟩, rfl⟩)

end Site

/-! ## The loop -/

namespace SyntaxTree

/-- A search of a tree after so many rounds. -/
def Search.after (root : SyntaxTree σ) (k : Nat) : Search σ := (step read)^[k] (start root)

/-- A search that remembers the ways to the nodes on its stack, whose top stands last. -/
structure Trace (σ : Type) where
  stack : List (Site σ)
  visited : List (Site σ)

namespace Trace

def start (root : SyntaxTree σ) : Trace σ := ⟨[⟨[], root⟩], []⟩

def step (s : Trace σ) : Trace σ :=
  match s.stack.getLast? with
  | none => s
  | some site => ⟨s.stack.dropLast ++ (site.parts read).reverse, s.visited ++ [site]⟩

def ahead (s : Trace σ) : List (Site σ) := Site.visits read s.stack.reverse

/-- The search without the ways. -/
def search (s : Trace σ) : Search σ :=
  ⟨s.stack.map Site.tree, s.visited.flatMap (Site.references read)⟩

variable {read}

theorem search_step (s : Trace σ) : (s.step read).search read = (s.search read).step read := by
  obtain ⟨stack, visited⟩ := s
  rcases List.eq_nil_or_concat stack with rfl | ⟨rest, site, rfl⟩
  · rfl
  · rw [List.concat_eq_append, search, search, List.map_append, List.map_singleton,
      Search.step_concat, ← Site.map_tree_parts]
    simp [step, Site.references, reference?]

/-- A round visits the next of the sites ahead, if there is one. -/
theorem ahead_step (s : Trace σ) : (s.step read).ahead read = (s.ahead read).tail := by
  obtain ⟨stack, visited⟩ := s
  rcases List.eq_nil_or_concat stack with rfl | ⟨rest, site, rfl⟩
  · simp [ahead, step, Site.visits]
  · simp [ahead, step, Site.visits]

theorem visited_step (s : Trace σ) :
    (s.step read).visited = s.visited ++ (s.ahead read).head?.toList := by
  obtain ⟨stack, visited⟩ := s
  rcases List.eq_nil_or_concat stack with rfl | ⟨rest, site, rfl⟩
  · simp [ahead, step, Site.visits]
  · simp [ahead, step, Site.visits]

variable (s : Trace σ) (k : Nat)

theorem search_iterate : ((step read)^[k] s).search read = (Search.step read)^[k] (s.search read) := by
  induction k with
  | zero => rfl
  | succ k ih => rw [Function.iterate_succ_apply', search_step, ih, Function.iterate_succ_apply']

theorem ahead_iterate : ((step read)^[k] s).ahead read = (s.ahead read).drop k := by
  induction k with
  | zero => rfl
  | succ k ih => rw [Function.iterate_succ_apply', ahead_step, ih, List.tail_drop]

theorem visited_iterate : ((step read)^[k] s).visited = s.visited ++ (s.ahead read).take k := by
  induction k with
  | zero => simp
  | succ k ih =>
    rw [Function.iterate_succ_apply', visited_step, ih, ahead_iterate, List.head?_drop,
      List.take_add_one, List.append_assoc]

theorem stack_iterate_eq_nil : ((step read)^[k] s).stack = [] ↔ (s.ahead read).length ≤ k := by
  rw [← List.drop_eq_nil_iff, ← ahead_iterate, ahead, Site.visits_eq_nil, List.reverse_eq_nil_iff]

/-- The top of the stack is the next site that is visited. -/
theorem getLast?_stack : s.stack.getLast? = (s.ahead read).head? := by
  obtain ⟨stack, visited⟩ := s
  rcases List.eq_nil_or_concat stack with rfl | ⟨rest, site, rfl⟩
  · simp [ahead, Site.visits]
  · simp [ahead, Site.visits]

end Trace

/-! ## The recursion -/

/-- The rules by which a recursion over the nodes finds references: where a node contributes one, and
where the nodes below it are entered, from left to right. -/
structure IsPreorder (f : SyntaxTree σ → List Reference) : Prop where
  importStatement {t : SyntaxTree σ} (h : t.kind = "import_statement") :
    f t = (t.sourceSpecifier? read).toList.map fun s => ⟨s, .static, t.hasTypeKeyword⟩
  reExport {t : SyntaxTree σ} (h : t.kind = "export_statement") {s : String}
    (hSource : t.sourceSpecifier? read = some s) : f t = [⟨s, .reExport, t.hasTypeKeyword⟩]
  localExport {t : SyntaxTree σ} (h : t.kind = "export_statement")
    (hSource : t.sourceSpecifier? read = none) : f t = t.children.flatMap f
  importCall {t : SyntaxTree σ} (h : t.kind = "call_expression") {s : String}
    (hArgument : t.dynamicSpecifier? read = some s) :
    f t = ⟨s, .dynamic, false⟩ :: t.children.flatMap f
  otherCall {t : SyntaxTree σ} (h : t.kind = "call_expression")
    (hArgument : t.dynamicSpecifier? read = none) : f t = t.children.flatMap f
  other {t : SyntaxTree σ}
    (h : t.kind ∉ ["import_statement", "export_statement", "call_expression"]) :
    f t = t.children.flatMap f

variable {read} {f : SyntaxTree σ → List Reference}

theorem isPreorder_preorder : IsPreorder read (preorder read) where
  importStatement h := by
    rw [preorder_eq, reference?, visit_import h, List.flatMap_nil, List.append_nil,
      Option.toList_map]
  reExport h _ hSource := by
    rw [preorder_eq, reference?, visit_reExport h hSource]
    rfl
  localExport h hSource := by
    rw [preorder_eq, reference?, visit_localExport h hSource]
    rfl
  importCall h _ hArgument := by
    rw [preorder_eq, reference?, visit_call h, hArgument]
    rfl
  otherCall h hArgument := by
    rw [preorder_eq, reference?, visit_call h, hArgument]
    rfl
  other h := by
    rw [preorder_eq, reference?, visit_other h]
    rfl

/-- Under the rules a node's references are settled by those of its children. -/
theorem IsPreorder.eq_of_children {g : SyntaxTree σ → List Reference} (hf : IsPreorder read f)
    (hg : IsPreorder read g) {t : SyntaxTree σ} (h : t.children.flatMap f = t.children.flatMap g) :
    f t = g t := by
  by_cases hImport : t.kind = "import_statement"
  · rw [hf.importStatement hImport, hg.importStatement hImport]
  · by_cases hExport : t.kind = "export_statement"
    · cases hSource : t.sourceSpecifier? read with
      | some s => rw [hf.reExport hExport hSource, hg.reExport hExport hSource]
      | none => rw [hf.localExport hExport hSource, hg.localExport hExport hSource, h]
    · by_cases hCall : t.kind = "call_expression"
      · cases hArgument : t.dynamicSpecifier? read with
        | some s => rw [hf.importCall hCall hArgument, hg.importCall hCall hArgument, h]
        | none => rw [hf.otherCall hCall hArgument, hg.otherCall hCall hArgument, h]
      · have hOther : t.kind ∉ ["import_statement", "export_statement", "call_expression"] := by
          simp [hImport, hExport, hCall]
        rw [hf.other hOther, hg.other hOther, h]

mutual

theorem IsPreorder.eq_preorder (h : IsPreorder read f) : (t : SyntaxTree σ) → f t = t.preorder read
  | ⟨_, _, _, _, children⟩ => h.eq_of_children isPreorder_preorder (h.flatMap_eq children)

theorem IsPreorder.flatMap_eq (h : IsPreorder read f) :
    (ts : List (SyntaxTree σ)) → ts.flatMap f = ts.flatMap (preorder read)
  | [] => rfl
  | t :: ts => by
    rw [List.flatMap_cons, List.flatMap_cons, h.eq_preorder t, h.flatMap_eq ts]

end

/-! ## What a literal is -/

def IsLiteral (t : SyntaxTree σ) : Prop :=
  t.kind = "string" ∨ (t.kind = "template_string" ∧
    ∀ child ∈ t.children, child.isNamed = true → child.kind ≠ "template_substitution")

theorem hasSubstitution_eq_false_iff (t : SyntaxTree σ) :
    t.hasSubstitution = false ↔
      ∀ child ∈ t.children, child.isNamed = true → child.kind ≠ "template_substitution" := by
  simp [hasSubstitution, namedChildren]

theorem stringLiteral?_eq_some_iff {t : SyntaxTree σ} {s : String} :
    t.stringLiteral? read = some s ↔ t.IsLiteral ∧ t.literalContents? read = some s := by
  rw [stringLiteral?, IsLiteral, ← hasSubstitution_eq_false_iff]
  split
  · next hString => simp [hString]
  · next hOther =>
    split
    · next hTemplate => simp [hTemplate]
    · next hNone => simp [hOther, hNone]

theorem sourceSpecifier?_eq_some_iff {t : SyntaxTree σ} {s : String} :
    t.sourceSpecifier? read = some s ↔ ∃ source, t.childByField? "source" = some source ∧
      source.IsLiteral ∧ source.literalContents? read = some s := by
  simp only [sourceSpecifier?, Option.bind_eq_bind, Option.bind_eq_some_iff,
    stringLiteral?_eq_some_iff]

theorem dynamicSpecifier?_eq_some_iff {t : SyntaxTree σ} {s : String} :
    t.dynamicSpecifier? read = some s ↔
      ∃ function, t.childByField? "function" = some function ∧ function.kind = "import" ∧
        ∃ arguments, t.childByField? "arguments" = some arguments ∧
          ∃ first, arguments.namedChildren.head? = some first ∧
            first.IsLiteral ∧ first.literalContents? read = some s := by
  simp only [dynamicSpecifier?, Option.bind_eq_bind, Option.bind_eq_some_iff,
    Option.ite_none_right_eq_some, stringLiteral?_eq_some_iff]

/-- Whatever the tree and however its text is read, the loop over a stack finds what the recursion
finds. It comes to an end, and it visits the nodes that are not below a pruned one: each of them once,
and a node before those below it, which come from left to right. A declaration's source and the first
argument of a call of `import` count if they are strings, or templates without substitutions, whose
contents can be read. -/
theorem stack_search_is_preorder {σ : Type} (read : σ → Option String) :
    (∀ f, IsPreorder read f ↔ f = references read) ∧
    (∀ root : SyntaxTree σ, ∃ visited : List (Site σ),
      (∀ k, (Search.after read root k).stack = [] ↔ visited.length ≤ k) ∧
      (∀ k, (Search.after read root k).stack.getLast? = visited[k]?.map Site.tree) ∧
      (∀ k, (Search.after read root k).found =
        (visited.take k).flatMap (Site.references read)) ∧
      root.references read = visited.flatMap (Site.references read) ∧
      (visited.map Site.address).Pairwise (· < ·) ∧
      ∀ s, s ∈ visited ↔ root.Reached read s.address s.tree) ∧
    (∀ (t : SyntaxTree σ) (s : String), t.sourceSpecifier? read = some s ↔
      ∃ source, t.childByField? "source" = some source ∧
        source.IsLiteral ∧ source.literalContents? read = some s) ∧
    ∀ (t : SyntaxTree σ) (s : String), t.dynamicSpecifier? read = some s ↔
      ∃ function, t.childByField? "function" = some function ∧ function.kind = "import" ∧
        ∃ arguments, t.childByField? "arguments" = some arguments ∧
          ∃ first, arguments.namedChildren.head? = some first ∧
            first.IsLiteral ∧ first.literalContents? read = some s := by
  have hReferences : references read = preorder read := funext (references_eq_preorder read)
  refine ⟨fun f => ⟨fun h => ?_, ?_⟩, fun root => ?_, fun t s => sourceSpecifier?_eq_some_iff,
    fun t s => dynamicSpecifier?_eq_some_iff⟩
  · rw [hReferences]
    exact funext h.eq_preorder
  · rintro rfl
    rw [hReferences]
    exact isPreorder_preorder
  · let visited := Site.visits read [⟨[], root⟩]
    have hStart : (Trace.start root).search read = Search.start root := rfl
    have hAfter : ∀ k, Search.after read root k =
        ((Trace.step read)^[k] (Trace.start root)).search read := fun k => by
      rw [Trace.search_iterate, hStart, Search.after]
    have hAhead : (Trace.start root).ahead read = visited := rfl
    refine ⟨visited, fun k => ?_, fun k => ?_, fun k => ?_, ?_,
      Site.pairwise_visits (List.pairwise_singleton _ _),
      fun s => ⟨Site.reached_of_mem_visits (List.forall_mem_singleton.mpr .root),
        Site.mem_visits_of_reached⟩⟩
    · rw [hAfter, Trace.search, List.map_eq_nil_iff, Trace.stack_iterate_eq_nil, hAhead]
    · rw [hAfter, Trace.search, List.getLast?_map, Trace.getLast?_stack, Trace.ahead_iterate,
        List.head?_drop, hAhead]
    · rw [hAfter, Trace.search, Trace.visited_iterate, hAhead]
      rfl
    · rw [hReferences, ← Site.flatMap_preorder, List.flatMap_singleton]

end SyntaxTree

end ModuleAtlas.Source
