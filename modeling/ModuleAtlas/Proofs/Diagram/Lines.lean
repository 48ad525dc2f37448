import ModuleAtlas.Diagram
import ModuleAtlas.Proofs.Text

/-!
# Reading a diagram back

A label may look like a line of its own, like an edge or like the end of the fence, and still the
text of a diagram says what its lines were. An escaped label holds no quote, so it ends at the next
one, wherever lines seem to break before; a number ends at the first character that is no digit.
-/

namespace ModuleAtlas.Diagram

open Text

/-- What a line after the header says. -/
inductive Line where
  | node (position : Nat) (shown : String)
  | edge (source target : Nat)

namespace Line

def text : Line → String
  | node position shown => nodeId position ++ "[\"" ++ shown ++ "\"]"
  | edge source target => nodeId source ++ " --> " ++ nodeId target

def isNode : Line → Bool
  | node _ _ => true
  | edge _ _ => false

def Shown : Line → Prop
  | node _ shown => '"' ∉ shown.toList
  | edge _ _ => True

end Line

/-- The places of the two ends of an edge, unless one of them is no node. -/
def ends? (g : Graph) (e : Edge) : Option (Nat × Nat) :=
  match g.position? e.source, g.position? e.target with
  | some a, some b => some (a, b)
  | _, _ => none

def nodeLines (g : Graph) : List Line := g.nodes.mapIdx fun i l => .node i (escape l)

def edgeLines (g : Graph) : List Line := (g.edges.filterMap (ends? g)).map fun p => .edge p.1 p.2

theorem edgeLine?_eq (g : Graph) (e : Edge) :
    edgeLine? g e = (ends? g e).map fun p => (Line.edge p.1 p.2).text := by
  unfold edgeLine? ends?
  cases g.position? e.source <;> cases g.position? e.target <;> rfl

theorem body_eq (g : Graph) :
    body g = header :: (nodeLines g ++ edgeLines g).map Line.text := by
  have hNodes : g.nodes.mapIdx nodeLine = (nodeLines g).map Line.text := by
    simp [nodeLines, List.mapIdx_eq_zipIdx_map, Line.text, nodeLine, Function.comp_def]
  have hEdges : g.edges.filterMap (edgeLine? g) = (edgeLines g).map Line.text := by
    rw [edgeLines, List.map_map, List.map_filterMap]
    exact congrArg (List.filterMap · g.edges) (funext (edgeLine?_eq g))
  rw [body, hNodes, hEdges, List.cons_append, List.map_append]

/-! ## The text as a whole -/

def opening : Fence → String
  | .bare => header
  | .markdown => "```mermaid\n" ++ header

def closing : Fence → String
  | .bare => ""
  | .markdown => "\n```"

theorem toList_intercalate_newline (first : String) (rest : List String) :
    ("\n".intercalate (first :: rest)).toList =
      first.toList ++ rest.flatMap fun line => '\n' :: line.toList := by
  rw [String.toList_intercalate, List.map_cons]
  induction rest generalizing first with
  | nil => simp
  | cons line rest ih => rw [List.map_cons, List.intercalate_cons_cons, ih]; simp

/-- Every line after the header stands behind a line break. -/
def written (ls : List Line) : List Char := ls.flatMap fun l => '\n' :: l.text.toList

theorem toList_render (fence : Fence) (g : Graph) :
    (render fence g).toList =
      (opening fence).toList ++ written (nodeLines g ++ edgeLines g) ++ (closing fence).toList := by
  unfold render lines
  rw [body_eq]
  cases fence with
  | bare =>
    dsimp only
    rw [toList_intercalate_newline, List.flatMap_map]
    simp [opening, closing, written]
  | markdown =>
    dsimp only
    rw [List.cons_append, toList_intercalate_newline, List.flatMap_append, List.flatMap_cons,
      List.flatMap_map]
    simp [opening, closing, written]

/-! ## Numbers and labels -/

theorem toList_nodeId (i : Nat) : (nodeId i).toList = 'n' :: Nat.toDigits 10 (i + 1) := by
  simp [nodeId]

theorem nodeId_append_inj {i j : Nat} {rest rest' : List Char}
    (hRest : ∀ c ∈ rest.head?, ¬ c.isDigit) (hRest' : ∀ c ∈ rest'.head?, ¬ c.isDigit)
    (hSame : (nodeId i).toList ++ rest = (nodeId j).toList ++ rest') : i = j ∧ rest = rest' := by
  rw [toList_nodeId, toList_nodeId, List.cons_append, List.cons_append, List.cons.injEq] at hSame
  have hDigit {n : Nat} : ∀ c ∈ Nat.toDigits 10 n, c.isDigit := fun _ hc =>
    Nat.isDigit_of_mem_toDigits (by decide) (by decide) hc
  obtain ⟨hDigits, hEnd⟩ := append_inj_of_all Char.isDigit hDigit hDigit hRest hRest' hSame.2
  have hNumber := congrArg (Nat.ofDigitChars 10 · 0) hDigits
  simp only [Nat.ofDigitChars_ten_toDigits] at hNumber
  exact ⟨Nat.succ.inj hNumber, hEnd⟩

theorem quote_not_mem_escape (label : String) : '"' ∉ (escape label).toList := by
  rw [escape, String.toList_ofList, List.mem_flatMap]
  rintro ⟨c, -, hc⟩
  split at hc
  · revert hc
    decide
  · rename_i hOther
    exact hOther (List.mem_singleton.mp hc).symm

theorem shown_append_inj {shown shown' : String} {rest rest' : List Char}
    (hShown : '"' ∉ shown.toList) (hShown' : '"' ∉ shown'.toList)
    (hSame : shown.toList ++ '"' :: rest = shown'.toList ++ '"' :: rest') :
    shown = shown' ∧ rest = rest' := by
  obtain ⟨hText, hEnd⟩ := append_inj_of_all (· != '"')
    (fun c hc => by simpa using ne_of_mem_of_not_mem hc hShown)
    (fun c hc => by simpa using ne_of_mem_of_not_mem hc hShown') (by simp) (by simp) hSame
  exact ⟨String.toList_inj.mp hText, List.tail_eq_of_cons_eq hEnd⟩

/-! ## Lines -/

theorem toList_node (i : Nat) (shown : String) :
    (Line.node i shown).text.toList =
      (nodeId i).toList ++ '[' :: '"' :: (shown.toList ++ '"' :: ']' :: []) := by
  simp [Line.text]

theorem toList_edge (a b : Nat) :
    (Line.edge a b).text.toList =
      (nodeId a).toList ++ ' ' :: "--> ".toList ++ (nodeId b).toList := by
  simp [Line.text]

theorem node_ne_edge {i a b : Nat} {shown : String} {rest rest' : List Char} :
    (Line.node i shown).text.toList ++ rest ≠ (Line.edge a b).text.toList ++ rest' := by
  intro hSame
  simp only [toList_node, toList_edge, List.append_assoc, List.cons_append] at hSame
  -- After its first number one of the lines has a bracket and the other a blank.
  have hNext := (nodeId_append_inj (by simp) (by simp) hSame).2
  simp at hNext

/-- What follows a line cannot be taken for a part of it. -/
theorem text_append_inj {l l' : Line} {rest rest' : List Char} (hl : l.Shown) (hl' : l'.Shown)
    (hRest : ∀ c ∈ rest.head?, c = '\n') (hRest' : ∀ c ∈ rest'.head?, c = '\n')
    (hSame : l.text.toList ++ rest = l'.text.toList ++ rest') : l = l' ∧ rest = rest' := by
  have hNoDigit {tail : List Char} (hTail : ∀ c ∈ tail.head?, c = '\n') :
      ∀ c ∈ tail.head?, ¬ c.isDigit := by
    intro c hc
    rw [hTail c hc]
    decide
  cases l with
  | node i shown =>
    cases l' with
    | node j shown' =>
      simp only [toList_node, List.append_assoc, List.cons_append] at hSame
      obtain ⟨rfl, hLabel⟩ := nodeId_append_inj (by simp) (by simp) hSame
      obtain ⟨rfl, hEnd⟩ := shown_append_inj hl hl' (by simpa using hLabel)
      exact ⟨rfl, by simpa using hEnd⟩
    | edge a b => exact absurd hSame node_ne_edge
  | edge a b =>
    cases l' with
    | node j shown' => exact absurd hSame.symm node_ne_edge
    | edge a' b' =>
      simp only [toList_edge, List.append_assoc, List.cons_append] at hSame
      obtain ⟨rfl, hTarget⟩ := nodeId_append_inj (by simp) (by simp) hSame
      rw [List.cons.injEq] at hTarget
      -- Only here does the end of the line matter: its last number must not run on.
      obtain ⟨rfl, hEnd⟩ := nodeId_append_inj (hNoDigit hRest) (hNoDigit hRest')
        (List.append_cancel_left hTarget.2)
      exact ⟨rfl, hEnd⟩

theorem head_written (ls : List Line) : ∀ c ∈ (written ls).head?, c = '\n' := by
  cases ls <;> simp [written]

theorem written_inj {ls ls' : List Line} (hls : ∀ l ∈ ls, l.Shown) (hls' : ∀ l ∈ ls', l.Shown)
    (hSame : written ls = written ls') : ls = ls' := by
  induction ls generalizing ls' with
  | nil =>
    cases ls' with
    | nil => rfl
    | cons l' ls' => simp [written] at hSame
  | cons l ls ih =>
    cases ls' with
    | nil => simp [written] at hSame
    | cons l' ls' =>
      obtain ⟨hFirst, hRest⟩ := List.forall_mem_cons.mp hls
      obtain ⟨hFirst', hRest'⟩ := List.forall_mem_cons.mp hls'
      have hTail : l.text.toList ++ written ls = l'.text.toList ++ written ls' := by
        simpa [written] using hSame
      obtain ⟨rfl, hOthers⟩ :=
        text_append_inj hFirst hFirst' (head_written ls) (head_written ls') hTail
      rw [ih hRest hRest' hOthers]

theorem shown_of_mem {g : Graph} {l : Line} (hl : l ∈ nodeLines g ++ edgeLines g) : l.Shown := by
  rcases List.mem_append.mp hl with hNode | hEdge
  · obtain ⟨i, hi, rfl⟩ := List.mem_mapIdx.mp hNode
    exact quote_not_mem_escape _
  · obtain ⟨p, -, rfl⟩ := List.mem_map.mp hEdge
    trivial

theorem isNode_of_mem {g : Graph} {l : Line} (hl : l ∈ nodeLines g) : l.isNode := by
  obtain ⟨i, hi, rfl⟩ := List.mem_mapIdx.mp hl
  rfl

theorem not_isNode_of_mem {g : Graph} {l : Line} (hl : l ∈ edgeLines g) : ¬ l.isNode := by
  obtain ⟨p, -, rfl⟩ := List.mem_map.mp hl
  exact Bool.false_ne_true

/-- Two diagrams with the same fence are the same text exactly if they have the same lines. -/
theorem render_eq_iff_lines {fence : Fence} {g g' : Graph} :
    render fence g = render fence g' ↔
      nodeLines g = nodeLines g' ∧ edgeLines g = edgeLines g' := by
  constructor
  · intro hSame
    have hText := congrArg String.toList hSame
    rw [toList_render, toList_render, List.append_cancel_right_eq,
      List.append_cancel_left_eq] at hText
    have hLines := written_inj (fun _ => shown_of_mem) (fun _ => shown_of_mem) hText
    -- The lines of nodes come first, so the first line of an edge parts the two kinds.
    exact append_inj_of_all Line.isNode (fun _ => isNode_of_mem) (fun _ => isNode_of_mem)
      (fun _ hl => not_isNode_of_mem (List.mem_of_mem_head? hl))
      (fun _ hl => not_isNode_of_mem (List.mem_of_mem_head? hl)) hLines
  · rintro ⟨hNodes, hEdges⟩
    rw [← String.toList_inj, toList_render, toList_render, hNodes, hEdges]

end ModuleAtlas.Diagram
