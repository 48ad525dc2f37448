import ModuleAtlas.Project.Basic
import ModuleAtlas.Source.Literal

/-!
# Syntax trees

A syntax tree is what a grammar makes of a source text: nodes of a kind, some of them named and the
others keywords and punctuation, some of them under a field of the node above. What a node covers of
the text is read off its span, which fails where the span cuts through a character. The references of
a tree are found by a loop over a stack of nodes. Imports, and exports with a source, are not entered;
calls are, because their arguments may hold further calls.
-/

namespace ModuleAtlas.Source

structure SyntaxTree (σ : Type) where
  kind : String
  isNamed : Bool
  field? : Option String
  span : σ
  children : List (SyntaxTree σ)

structure Range where
  start : Nat
  stop : Nat
deriving DecidableEq

def Range.text? (source : String) (r : Range) : Option String :=
  String.fromUTF8? (source.toUTF8.extract r.start r.stop)

namespace SyntaxTree

variable {σ : Type}

def childByField? (t : SyntaxTree σ) (name : String) : Option (SyntaxTree σ) :=
  t.children.find? fun child => child.field? == some name

def namedChildren (t : SyntaxTree σ) : List (SyntaxTree σ) := t.children.filter (·.isNamed)

/-! ## Specifiers -/

section Specifiers

variable (read : σ → Option String)

/-- What a part of a literal contributes to its value. -/
def contents? (t : SyntaxTree σ) : Option String :=
  (read t.span).map fun text =>
    if t.kind = "string_fragment" then text
    else if t.kind = "escape_sequence" then Escape.decode text
    else ""

def literalContents? (t : SyntaxTree σ) : Option String :=
  (t.namedChildren.mapM (contents? read)).map String.join

def hasSubstitution (t : SyntaxTree σ) : Bool :=
  t.namedChildren.any fun child => child.kind == "template_substitution"

/-- The value of a string, or of a template without substitutions. -/
def stringLiteral? (t : SyntaxTree σ) : Option String :=
  if t.kind = "string" then t.literalContents? read
  else if t.kind = "template_string" ∧ t.hasSubstitution = false then t.literalContents? read
  else none

def sourceSpecifier? (t : SyntaxTree σ) : Option String := do
  let source ← t.childByField? "source"
  source.stringLiteral? read

/-- The specifier of a call whose callee is the keyword `import`. -/
def dynamicSpecifier? (t : SyntaxTree σ) : Option String := do
  let function ← t.childByField? "function"
  if function.kind = "import" then
    let arguments ← t.childByField? "arguments"
    let first ← arguments.namedChildren.head?
    first.stringLiteral? read
  else none

/-- Whether a bare keyword `type` stands directly in a declaration. -/
def hasTypeKeyword (t : SyntaxTree σ) : Bool :=
  t.children.any fun child => ! child.isNamed && child.kind == "type"

/-- The reference that a node makes, and the nodes below it that are searched for more. -/
def visit (t : SyntaxTree σ) : Option Reference × List (SyntaxTree σ) :=
  if t.kind = "import_statement" then
    ((t.sourceSpecifier? read).map fun s => ⟨s, .static, t.hasTypeKeyword⟩, [])
  else if t.kind = "export_statement" then
    match t.sourceSpecifier? read with
    | some s => (some ⟨s, .reExport, t.hasTypeKeyword⟩, [])
    | none => (none, t.children)
  else if t.kind = "call_expression" then
    ((t.dynamicSpecifier? read).map fun s => ⟨s, .dynamic, false⟩, t.children)
  else (none, t.children)

end Specifiers

/-! ## The size of a tree -/

mutual

def size : SyntaxTree σ → Nat
  | ⟨_, _, _, _, children⟩ => 1 + totalSize children
termination_by structural t => t

def totalSize : List (SyntaxTree σ) → Nat
  | [] => 0
  | t :: rest => t.size + totalSize rest
termination_by structural ts => ts

end

theorem size_eq (t : SyntaxTree σ) : t.size = 1 + totalSize t.children := by
  cases t
  rfl

theorem totalSize_append (xs ys : List (SyntaxTree σ)) :
    totalSize (xs ++ ys) = totalSize xs + totalSize ys := by
  induction xs with
  | nil => simp [totalSize]
  | cons t rest ih => simp [totalSize, ih, Nat.add_assoc]

theorem totalSize_reverse (xs : List (SyntaxTree σ)) : totalSize xs.reverse = totalSize xs := by
  induction xs with
  | nil => rfl
  | cons t rest ih => simp [totalSize, totalSize_append, ih, Nat.add_comm]

theorem visit_snd (read : σ → Option String) (t : SyntaxTree σ) :
    (t.visit read).2 = [] ∨ (t.visit read).2 = t.children := by
  rw [visit]
  split
  · exact .inl rfl
  · split
    · split
      · exact .inl rfl
      · exact .inr rfl
    · split
      · exact .inr rfl
      · exact .inr rfl

theorem totalSize_visit_lt (read : σ → Option String) (t : SyntaxTree σ) :
    totalSize (t.visit read).2 < t.size := by
  rw [size_eq]
  rcases visit_snd read t with h | h
  · rw [h, totalSize]
    omega
  · rw [h]
    omega

/-! ## The search -/

/-- A search under way. The top of its stack stands last. -/
structure Search (σ : Type) where
  stack : List (SyntaxTree σ)
  found : List Reference

namespace Search

variable (read : σ → Option String)

def start (root : SyntaxTree σ) : Search σ := ⟨[root], []⟩

/-- One round: a node is taken off the stack, and the nodes below it that are searched are put on
it, the first of them last. -/
def step (s : Search σ) : Search σ :=
  match s.stack.getLast? with
  | none => s
  | some t =>
    let (reference?, below) := t.visit read
    ⟨s.stack.dropLast ++ below.reverse, s.found ++ reference?.toList⟩

theorem step_concat (stack : List (SyntaxTree σ)) (t : SyntaxTree σ) (found : List Reference) :
    step read ⟨stack ++ [t], found⟩ =
      ⟨stack ++ (t.visit read).2.reverse, found ++ (t.visit read).1.toList⟩ := by
  simp [step]

theorem totalSize_step_lt {s : Search σ} (h : s.stack ≠ []) :
    totalSize (s.step read).stack < totalSize s.stack := by
  obtain ⟨stack, found⟩ := s
  obtain rfl | ⟨rest, t, rfl⟩ := List.eq_nil_or_concat stack
  · exact absurd rfl h
  · have hLess := totalSize_visit_lt read t
    rw [List.concat_eq_append, step_concat, totalSize_append, totalSize_reverse, totalSize_append,
      totalSize, totalSize]
    omega

/-- Goes on until the stack is empty. -/
def run (s : Search σ) : List Reference :=
  if _h : s.stack.isEmpty then s.found else run (s.step read)
termination_by totalSize s.stack
decreasing_by exact totalSize_step_lt read (by simpa using _h)

end Search

def references (read : σ → Option String) (root : SyntaxTree σ) : List Reference :=
  (Search.start root).run read

end SyntaxTree

end ModuleAtlas.Source
