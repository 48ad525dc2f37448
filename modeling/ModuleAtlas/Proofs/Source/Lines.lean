import ModuleAtlas.Proofs.Source.Inert

/-!
# Scanning line by line

A line of code adds its tokens to those of the lines before it, however it ends: at a line break, or
at the end of the text, where a comment may still be open.
-/

namespace ModuleAtlas.Source.Scanner

/-- The tokens of the line are complete at the line break behind it or at the end of the text. -/
def ScansLine (line : String) (added : List Token) : Prop :=
  ∀ s top outer, InCode s top outer →
    InCode ((line.toList.foldl advance s).advance '\n') (top.append (added ++ [.lineBreak])) outer ∧
    InCode (line.toList.foldl advance s).finishToken (top.append added) outer

section Line

variable {s : Scanner} {top : Frame} {outer : List Frame}

theorem InCode.advance_lineBreak (h : InCode s top outer) :
    InCode (s.advance '\n') (top.append [.lineBreak]) outer := by
  rw [h.advance_eq]
  exact h.emitTrivia _ rfl rfl _

theorem InCode.finishToken_eq (h : InCode s top outer) : s.finishToken = s := by
  rw [finishToken, h.mode]

end Line

theorem Scans.line {line : String} {ts : List Token} (h : Scans line ts) : ScansLine line ts := by
  intro s top outer hCode
  have hRead := h _ _ _ hCode
  constructor
  · rw [← Frame.append_append]
    exact hRead.advance_lineBreak
  · rw [hRead.finishToken_eq]
    exact hRead

theorem ScansLine.comment {text : String} (hText : ∀ c ∈ text.toList, isCommentEnd c = false) :
    ScansLine ("//" ++ text) [.comment] := by
  intro s top outer h
  rw [h.foldl_lineComment hText]
  have hEnd : InCode (({ s with mode := .lineComment } : Scanner).emitTrivia .comment)
      (top.append [.comment]) outer := h.emitTrivia _ rfl rfl _
  refine ⟨?_, hEnd⟩
  rw [← Frame.append_append]
  have hBreak := hEnd.advance_lineBreak
  rw [hEnd.advance_eq, ← hEnd.start_eq] at hBreak
  exact hBreak

variable {α : Type} {line : α → String} {added : α → List Token}

theorem foldl_lines {items : List α} (hLines : ∀ i ∈ items, ScansLine (line i) (added i))
    {s : Scanner} {top : Frame} {outer : List Frame} (h : InCode s top outer) :
    InCode (("\n".intercalate (items.map line)).toList.foldl advance s).finishToken
      (top.append ([.lineBreak].intercalate (items.map added))) outer := by
  induction items generalizing s top with
  | nil =>
    have hEmpty : ([].foldl advance s).finishToken = s := h.finishToken_eq
    exact hEmpty.symm ▸ h
  | cons i items ih =>
    rw [List.forall_mem_cons] at hLines
    obtain ⟨hBreak, hFinish⟩ := hLines.1 _ _ _ h
    cases items with
    | nil => simpa using hFinish
    | cons j items =>
      have hRest := ih hLines.2 hBreak
      rw [Frame.append_append] at hRest
      simpa [String.toList_intercalate, List.intercalate_cons_cons] using hRest

theorem withoutShebang_eq {text : List Char} (h : text.head? ≠ some '#') :
    withoutShebang text = text := by
  unfold withoutShebang
  split
  · exact absurd rfl h
  · rfl

/-- The tokens of a text are those of its lines, with line breaks between them. -/
theorem tokens_lines (dialect : Dialect) {items : List α}
    (hLines : ∀ i ∈ items, ScansLine (line i) (added i))
    (hStart : ∀ i ∈ items, (line i).toList.head? ≠ some '#') :
    tokens dialect ("\n".intercalate (items.map line)).toList =
      [.lineBreak].intercalate (items.map added) := by
  have hHead : ("\n".intercalate (items.map line)).toList.head? ≠ some '#' := by
    cases items with
    | nil => nofun
    | cons i items =>
      have hFirst := hStart i (.head _)
      cases items with
      | nil => simpa using hFirst
      | cons j items =>
        simp only [List.map_cons, String.toList_intercalate, List.intercalate_cons_cons]
        cases hLine : (line i).toList with
        | nil => simp
        | cons c rest => simpa [hLine] using hFirst
  have hInitial : InCode (initial dialect ("\n".intercalate (items.map line)).toList) ⟨.file, []⟩ [] :=
    ⟨rfl, rfl, rfl, rfl⟩
  have hEnd := foldl_lines hLines hInitial
  rw [tokens, withoutShebang_eq hHead, finish, hEnd.outer, hEnd.frame,
    List.foldl_nil]
  simp [Frame.append]

end ModuleAtlas.Source.Scanner
