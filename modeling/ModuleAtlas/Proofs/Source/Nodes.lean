import ModuleAtlas.Proofs.Source.Preorder
import ModuleAtlas.Source.Node

/-!
# The references of what was read

The search of the tree of a source text finds the references of the nodes that were read: the node's
own, then those of its parts.
-/

namespace ModuleAtlas.Source

namespace Node

def reference? : Node → Option Reference
  | importDeclaration typeOnly source _ => source.map fun l => ⟨l.value, .static, typeOnly⟩
  | exportDeclaration typeOnly source _ => source.map fun l => ⟨l.value, .reExport, typeOnly⟩
  | importCall argument _ => argument.map fun l => ⟨l.value, .dynamic, false⟩
  | other _ => none

mutual

/-- The references of a node: its own, then those of its parts from left to right. -/
def references : Node → List Reference
  | importDeclaration typeOnly source children =>
    (importDeclaration typeOnly source children).reference?.toList
  | exportDeclaration typeOnly (some source) children =>
    (exportDeclaration typeOnly (some source) children).reference?.toList
  | exportDeclaration _ none children => allReferences children
  | importCall argument children =>
    (importCall argument children).reference?.toList ++ allReferences children
  | other children => allReferences children
termination_by structural n => n

def allReferences : List Node → List Reference
  | [] => []
  | n :: rest => n.references ++ allReferences rest
termination_by structural ns => ns

end

end Node

/-! ## The trees of nodes -/

namespace SyntaxTree

theorem decode_backslash (text : List Char) :
    Escape.decode (String.ofList ('\\' :: text)) = String.ofList (Escape.value text) := by
  rw [Escape.decode, String.toList_ofList]
  match text with
  | [] => rfl
  | [c] => rfl
  | c :: d :: rest => simp [Escape.value]

theorem contents?_ofPiece (p : Piece) :
    (ofPiece p).contents? id = some (String.ofList p.value) := by
  cases p with
  | fragment text => rfl
  | escape text => exact congrArg some (decode_backslash text)

theorem mapM_contents?_ofPiece (ps : List Piece) :
    (ps.map ofPiece).mapM (contents? id) = some (ps.map fun p => String.ofList p.value) := by
  induction ps with
  | nil => rfl
  | cons p ps ih =>
    rw [List.map_cons, List.mapM_cons, contents?_ofPiece, ih]
    rfl

theorem namedChildren_ofLiteral (field? : Option String) (l : Literal) :
    (ofLiteral field? l).namedChildren = l.pieces.map ofPiece := by
  apply List.filter_eq_self.mpr
  intro t ht
  obtain ⟨p, -, rfl⟩ := List.mem_map.mp ht
  cases p <;> rfl

theorem stringLiteral?_ofLiteral (field? : Option String) (l : Literal) :
    (ofLiteral field? l).stringLiteral? id = some l.value := by
  have hContents : (ofLiteral field? l).literalContents? id = some l.value := by
    rw [literalContents?, namedChildren_ofLiteral, mapM_contents?_ofPiece, Option.map_some,
      Option.some_inj, ← String.toList_inj, String.toList_join, Literal.value, String.toList_ofList,
      List.flatMap_map]
    simp only [String.toList_ofList]
  have hSubstitution : (ofLiteral field? l).hasSubstitution = false := by
    rw [hasSubstitution, namedChildren_ofLiteral, List.any_map, List.any_eq_false]
    intro p _
    cases p <;> simp [ofPiece]
  obtain ⟨isTemplate, pieces⟩ := l
  cases isTemplate
  · exact hContents
  · rw [stringLiteral?, if_neg (by simp [ofLiteral, inner]), if_pos ⟨rfl, hSubstitution⟩, hContents]

theorem ofNodes_eq (ns : List Node) : ofNodes ns = ns.map ofNode := by
  induction ns with
  | nil => rfl
  | cons n ns ih => rw [ofNodes, ih, List.map_cons]

theorem find?_ofNodes (name : String) (ns : List Node) :
    (ofNodes ns).find? (fun child => child.field? == some name) = none := by
  rw [List.find?_eq_none, ofNodes_eq]
  intro t ht
  obtain ⟨n, -, rfl⟩ := List.mem_map.mp ht
  cases n <;> simp [ofNode, inner]

theorem hasTypeKeyword_ofNodes (ns : List Node) :
    (ofNodes ns).any (fun child => ! child.isNamed && child.kind == "type") = false := by
  rw [List.any_eq_false, ofNodes_eq]
  intro t ht
  obtain ⟨n, -, rfl⟩ := List.mem_map.mp ht
  cases n <;> simp [ofNode, inner]

section Declarations

variable (word : String) (typeOnly : Bool) (source? : Option Literal) (below : List Node)

theorem find?_declaration :
    (head word typeOnly source? ++ ofNodes below).find? (fun child => child.field? == some "source") =
      source?.map (ofLiteral "source") := by
  cases source? with
  | none => cases typeOnly <;> simp [head, keyword, find?_ofNodes]
  | some l => cases typeOnly <;> simp [head, keyword, ofLiteral, inner]

theorem hasTypeKeyword_declaration (kind : String) (hWord : word ≠ "type") :
    (inner kind none (head word typeOnly source? ++ ofNodes below)).hasTypeKeyword = typeOnly := by
  rw [hasTypeKeyword, inner, List.any_append, hasTypeKeyword_ofNodes]
  cases source? <;> cases typeOnly <;> simp [head, keyword, ofLiteral, inner, hWord]

theorem sourceSpecifier?_declaration (kind : String) :
    (inner kind none (head word typeOnly source? ++ ofNodes below)).sourceSpecifier? id =
      source?.map Literal.value := by
  rw [sourceSpecifier?, childByField?, inner, find?_declaration]
  cases source? with
  | none => rfl
  | some l => exact stringLiteral?_ofLiteral "source" l

end Declarations

theorem dynamicSpecifier?_ofNode (argument? : Option Literal) (below : List Node) :
    (ofNode (.importCall argument? below)).dynamicSpecifier? id = argument?.map Literal.value := by
  cases argument? with
  | some l => exact stringLiteral?_ofLiteral none l
  | none =>
    cases below with
    | nil => rfl
    | cons n below => cases n <;> rfl

theorem preorder_ofLiteral (field? : Option String) (l : Literal) :
    (ofLiteral field? l).preorder id = [] := by
  have hVisit : (ofLiteral field? l).visit id = (none, l.pieces.map ofPiece) := by
    obtain ⟨isTemplate, pieces⟩ := l
    cases isTemplate <;> rfl
  rw [preorder_eq, reference?, hVisit, List.flatMap_map, Option.toList_none, List.nil_append,
    List.flatMap_eq_nil_iff]
  intro p _
  cases p with
  | fragment text => exact preorder_leaf ..
  | escape text => exact preorder_leaf ..

theorem flatMap_preorder_head (word : String) (typeOnly : Bool) (source? : Option Literal) :
    (head word typeOnly source?).flatMap (preorder id) = [] := by
  cases source? <;> cases typeOnly <;>
    simp [head, keyword, preorder_leaf, preorder_ofLiteral]

mutual

theorem preorder_ofNode : (n : Node) → (ofNode n).preorder id = n.references
  | .importDeclaration typeOnly source? below => by
    rw [preorder_eq, reference?, ofNode, visit_import rfl, sourceSpecifier?_declaration,
      hasTypeKeyword_declaration _ _ _ _ _ (by decide), Option.map_map]
    exact List.append_nil _
  | .exportDeclaration typeOnly (some source) below => by
    rw [preorder_eq, reference?, ofNode, visit_reExport rfl (sourceSpecifier?_declaration ..),
      hasTypeKeyword_declaration _ _ _ _ _ (by decide)]
    exact List.append_nil _
  | .exportDeclaration typeOnly none below => by
    rw [preorder_eq, reference?, ofNode, visit_localExport rfl (sourceSpecifier?_declaration ..),
      inner, List.flatMap_append, flatMap_preorder_head, flatMap_preorder_ofNodes below]
    rfl
  | .importCall argument? below => by
    have hArguments : preorder id (inner "arguments" "arguments"
        ((argument?.map (ofLiteral none)).toList ++ ofNodes below)) = Node.allReferences below := by
      rw [preorder_eq, reference?, inner, visit_other (by simp), List.flatMap_append,
        flatMap_preorder_ofNodes below]
      cases argument? with
      | none => rfl
      | some l =>
        rw [Option.map_some, Option.toList_some, List.flatMap_singleton, preorder_ofLiteral]
        rfl
    rw [preorder_eq, reference?, visit_call rfl, dynamicSpecifier?_ofNode, Option.map_map,
      Node.references, ofNode, inner, List.flatMap_cons, List.flatMap_singleton, hArguments, inner,
      preorder_leaf]
    rfl
  | .other below => by
    rw [preorder_eq, reference?, ofNode, inner, visit_other (by simp),
      flatMap_preorder_ofNodes below]
    rfl

theorem flatMap_preorder_ofNodes :
    (ns : List Node) → (ofNodes ns).flatMap (preorder id) = Node.allReferences ns
  | [] => rfl
  | n :: ns => by
    rw [ofNodes, List.flatMap_cons, preorder_ofNode n, flatMap_preorder_ofNodes ns,
      Node.allReferences]

end

end SyntaxTree

theorem references_eq_allReferences (dialect : Dialect) (text : String) :
    references dialect text = Node.allReferences (Node.ofText dialect text) := by
  rw [references, SyntaxTree.references_eq_preorder]
  exact SyntaxTree.preorder_ofNode (.other (Node.ofText dialect text))

end ModuleAtlas.Source
