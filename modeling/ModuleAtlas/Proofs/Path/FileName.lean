import ModuleAtlas.Proofs.Path.Spelling
import ModuleAtlas.Proofs.Text

/-!
# The name at the end of a cleaned path

A cleaned path is a text for its directory followed by a name, or it has no name and ends in a dot
or a slash. Another extension changes the part after the last dot of the name, and a dot at the
front of the name starts no extension.
-/

namespace ModuleAtlas.Path

open Component (Plain)

/-- A directory's text: empty, or ended by a slash. -/
def IsFront (dir : String) : Prop := dir = "" ∨ ∃ above, dir = above ++ "/"

theorem IsFront.below {dir : String} (h : IsFront dir) (s : String) : IsFront (s ++ "/" ++ dir) := by
  obtain rfl | ⟨above, rfl⟩ := h
  · exact .inr ⟨s, String.append_empty⟩
  · exact .inr ⟨s ++ "/" ++ above, (String.append_assoc ..).symm⟩

theorem exists_front (pieces : List String) :
    ∃ dir, IsFront dir ∧ ∀ s, "/".intercalate (pieces ++ [s]) = dir ++ s := by
  induction pieces with
  | nil => exact ⟨"", .inl rfl, fun s => by simp⟩
  | cons piece pieces ih =>
    obtain ⟨dir, hFront, hText⟩ := ih
    refine ⟨piece ++ "/" ++ dir, hFront.below piece, fun s => ?_⟩
    rw [List.cons_append, String.intercalate_cons_of_ne_nil (by simp), hText, ← String.append_assoc]

/-- A path that ends in a name: the text of its directory, and that name. -/
structure Named (p : Path) (dir name : String) : Prop where
  text : p.text = dir ++ name
  front : IsFront dir
  slash_free : '/' ∉ name.toList
  fileName : p.fileName? = some name
  replace : ∀ s, ofTrimmed (p.trimmed.1, p.trimmed.2.dropLast ++ [s]) = ⟨dir ++ s⟩

theorem dropWhile_noise {part : Component} (hPart : part.Plain) (pieces : List String) :
    ((pieces ++ [part.text]).reverse.dropWhile fun s => s = "" || s = ".").reverse =
      pieces ++ [part.text] := by
  rw [List.reverse_append, List.reverse_singleton, List.singleton_append,
    List.dropWhile_cons_of_neg (by simp [hPart.text_ne_empty, hPart.text_ne_here])]
  simp

section Last

variable {parts : List Component} {s : String} (h : ∀ part ∈ parts ++ [.name s], part.Plain)

include h

theorem segments_last :
    (Path.mk ("/".intercalate (parts.map Component.text ++ [s]))).segments =
      parts.map Component.text ++ [s] := by
  have hFree : ∀ piece ∈ (parts ++ [Component.name s]).map Component.text, '/' ∉ piece.toList :=
    List.forall_mem_map.mpr fun part hMem => (h part hMem).slash_free
  rw [List.map_append] at hFree
  exact segments_intercalate hFree (by simp)

theorem Named.of_absolute : ∃ dir, Named (ofComponents (.root :: (parts ++ [.name s]))) dir s := by
  have hLast : (Component.name s).Plain := h _ (by simp)
  obtain ⟨dir, hFront, hText⟩ := exists_front (parts.map Component.text)
  have hSpelled : ofComponents (.root :: (parts ++ [.name s])) =
      ⟨"/" ++ "/".intercalate (parts.map Component.text ++ [s])⟩ := by
    rw [ofComponents, List.map_append]
    rfl
  have hAbsolute : (Path.mk ("/" ++ "/".intercalate (parts.map Component.text ++ [s]))).isAbsolute =
      true := by simp [isAbsolute]
  have hTrimmed : (Path.mk ("/" ++ "/".intercalate (parts.map Component.text ++ [s]))).trimmed =
      (some "", parts.map Component.text ++ [s]) := by
    rw [trimmed, if_pos hAbsolute, segments_slash, segments_last h, List.tail_cons]
    exact congrArg _ (dropWhile_noise hLast _)
  have hComponents := components_ofComponents (.absolute h) (List.cons_ne_nil _ _)
  rw [hSpelled] at hComponents ⊢
  refine ⟨"/" ++ dir, ?_, hFront.below "", hLast.slash_free, ?_, fun t => ?_⟩
  · rw [hText, String.append_assoc]
  · rw [fileName?, hComponents, ← List.cons_append, List.getLast?_concat]
  · rw [hTrimmed, List.dropLast_concat, ofTrimmed, hText, String.append_assoc]

theorem Named.of_relative : ∃ dir, Named (ofComponents (parts ++ [.name s])) dir s := by
  have hLast : (Component.name s).Plain := h _ (by simp)
  obtain ⟨dir, hFront, hText⟩ := exists_front (parts.map Component.text)
  have hSpelled : ofComponents (parts ++ [.name s]) =
      ⟨"/".intercalate (parts.map Component.text ++ [s])⟩ := by
    rw [ofComponents, List.map_append]
    · rfl
    · intro rest hRoot
      cases h .root (by rw [hRoot]; exact .head _)
  -- A first piece that is empty or a dot would be no plain component.
  have hHead : ∀ piece, (Path.mk ("/".intercalate (parts.map Component.text ++ [s]))).segments.head? =
      some piece → piece ≠ "" ∧ piece ≠ "." := by
    intro piece hPiece
    rw [segments_last h] at hPiece
    have hMem : piece ∈ (parts ++ [Component.name s]).map Component.text := by
      rw [List.map_append]
      exact List.mem_of_head? hPiece
    obtain ⟨part, hPart, rfl⟩ := List.mem_map.mp hMem
    exact ⟨(h part hPart).text_ne_empty, (h part hPart).text_ne_here⟩
  have hRelative : ¬ (Path.mk ("/".intercalate (parts.map Component.text ++ [s]))).isAbsolute = true :=
    fun hAbsolute => (hHead _ (segments_absolute hAbsolute)).1 rfl
  have hTrimmed : (Path.mk ("/".intercalate (parts.map Component.text ++ [s]))).trimmed =
      (none, parts.map Component.text ++ [s]) := by
    rw [trimmed, if_neg hRelative, if_neg fun hHere => (hHead _ hHere).2 rfl, segments_last h]
    exact congrArg _ (dropWhile_noise hLast _)
  have hComponents := components_ofComponents (.relative h) (by simp)
  rw [hSpelled] at hComponents ⊢
  refine ⟨dir, hText s, hFront, hLast.slash_free, ?_, fun t => ?_⟩
  · rw [fileName?, hComponents, List.getLast?_concat]
  · rw [hTrimmed, List.dropLast_concat, ← hText]
    rfl

end Last

/-- A path without a name at its end, and with a text that no name could end. -/
def Nameless (p : Path) : Prop :=
  p.fileName? = none ∧ ∃ front, p.text = front ++ "." ∨ p.text = front ++ "/"

theorem exists_text_up (parts : List Component) :
    ∃ front, "/".intercalate ((parts ++ [Component.up]).map Component.text) = front ++ "." := by
  have hUp : ".." = "." ++ "." := by decide
  obtain ⟨dir, -, hDir⟩ := exists_front (parts.map Component.text)
  refine ⟨dir ++ ".", ?_⟩
  rw [List.map_append, List.map_singleton, hDir, String.append_assoc, ← hUp]
  rfl

theorem Nameless.of_up {parts : List Component} (h : Settled (parts ++ [.up])) :
    Nameless (ofComponents (parts ++ [.up])) := by
  constructor
  · rw [fileName?, components_ofComponents h (by simp), List.getLast?_concat]
  · cases parts with
    | nil => exact ⟨".", .inl (by decide)⟩
    | cons part parts =>
      cases part with
      | root =>
        obtain ⟨front, hText⟩ := exists_text_up parts
        refine ⟨"/" ++ front, .inl ?_⟩
        rw [List.cons_append, ofComponents, hText, String.append_assoc]
      | here => exact (exists_text_up (.here :: parts)).imp fun _ hText => .inl hText
      | up => exact (exists_text_up (.up :: parts)).imp fun _ hText => .inl hText
      | name s => exact (exists_text_up (.name s :: parts)).imp fun _ hText => .inl hText

theorem Settled.named_or {parts : List Component} (h : Settled parts) (hSome : parts ≠ []) :
    (∃ dir name, Named (ofComponents parts) dir name) ∨ Nameless (ofComponents parts) := by
  have hSettled := h
  cases h with
  | relative hPlain =>
    obtain rfl | ⟨parts, last, rfl⟩ := List.eq_nil_or_concat' parts
    · exact (hSome rfl).elim
    cases last with
    | up => exact .inr (.of_up hSettled)
    | name s =>
      obtain ⟨dir, hNamed⟩ := Named.of_relative hPlain
      exact .inl ⟨dir, s, hNamed⟩
    | root => cases hPlain .root (by simp)
    | here => cases hPlain .here (by simp)
  | absolute hPlain =>
    rename_i parts
    obtain rfl | ⟨parts, last, rfl⟩ := List.eq_nil_or_concat' parts
    · exact .inr ⟨by decide, "", .inr (by decide)⟩
    cases last with
    | up =>
      rw [← List.cons_append] at hSettled ⊢
      exact .inr (.of_up hSettled)
    | name s =>
      obtain ⟨dir, hNamed⟩ := Named.of_absolute hPlain
      exact .inl ⟨dir, s, hNamed⟩
    | root => cases hPlain .root (by simp)
    | here => cases hPlain .here (by simp)

theorem clean_named_or (p : Path) : (∃ dir name, Named p.clean dir name) ∨ Nameless p.clean := by
  have hSettled := settled_cleanComponents p
  rw [clean]
  split
  · exact .inr ⟨by decide, "", .inl rfl⟩
  · rename_i hSome
    exact hSettled.named_or hSome

/-! ## Extensions -/

theorem mem_of_append_eq {s t u : String} {c : Char} (h : s ++ t = u ++ String.ofList [c])
    (hSome : t ≠ "") : c ∈ t.toList := by
  have hEnd := congrArg (fun text => text.toList.getLast?) h
  simp only [String.toList_append, String.toList_ofList] at hEnd
  have hNonempty : t.toList ≠ [] := by simpa using hSome
  rw [List.getLast?_concat, List.getLast?_append_of_ne_nil _ hNonempty] at hEnd
  exact List.mem_of_getLast? hEnd

theorem IsFront.last {dir s t : String} (hDir : IsFront dir) (h : dir = s ++ t)
    (hFree : '/' ∉ t.toList) : t = "" := by
  by_contra hSome
  obtain rfl | ⟨above, rfl⟩ := hDir
  · have hNone : t = "" := by
      simpa using (String.append_eq_empty_iff.mp h.symm).2
    exact hSome hNone
  · exact hFree (mem_of_append_eq h.symm hSome)

/-- A text without slashes at the end of a path stands at the end of its name. -/
theorem IsFront.suffix {dir name front back : String} (hDir : IsFront dir)
    (hFree : '/' ∉ back.toList) (h : dir ++ name = front ++ back) :
    ∃ stem, front = dir ++ stem ∧ name = stem ++ back := by
  rw [← String.toList_inj, String.toList_append, String.toList_append,
    List.append_eq_append_iff] at h
  rcases h with ⟨stem, hFront, hName⟩ | ⟨more, hMore, hBack⟩
  · refine ⟨String.ofList stem, ?_, ?_⟩
    · rw [← String.toList_inj, hFront, String.toList_append, String.toList_ofList]
    · rw [← String.toList_inj, hName, String.toList_append, String.toList_ofList]
  · have hSlash : '/' ∉ (String.ofList more).toList := by
      rw [hBack] at hFree
      simpa using fun hMem => hFree (List.mem_append_left _ hMem)
    have hDirText : dir = front ++ String.ofList more := by
      rw [← String.toList_inj, hMore, String.toList_append, String.toList_ofList]
    have hNone := hDir.last hDirText hSlash
    rw [hNone, String.append_empty] at hDirText
    refine ⟨"", by rw [hDirText, String.append_empty], ?_⟩
    rw [String.ofList_eq_empty_iff] at hNone
    rw [← String.toList_inj, String.empty_append, hBack, hNone, List.nil_append]

theorem splitExtension?_append {stem ext : String} (hExt : '.' ∉ ext.toList) :
    splitExtension? (stem ++ "." ++ ext) = if stem = "" then none else some (stem, ext) := by
  have hDot : ".".toList = ['.'] := rfl
  rw [splitExtension?, String.toList_append, String.toList_append, hDot, List.append_assoc,
    List.singleton_append, Text.splitLast?_append hExt]
  by_cases hStem : stem = ""
  · subst hStem
    rfl
  · have hSome : stem.toList.isEmpty = false := by simpa using hStem
    simp [hSome, hStem]

theorem exists_stem_of_splitExtension? {name stem ext : String}
    (h : splitExtension? name = some (stem, ext)) : name = stem ++ "." ++ ext ∧ '.' ∉ ext.toList := by
  have hDot : ".".toList = ['.'] := rfl
  by_cases hMem : '.' ∈ name.toList
  · obtain ⟨before, after, hName, hFree⟩ := Text.exists_last_of_mem hMem
    have hText : name = String.ofList before ++ "." ++ String.ofList after := by
      rw [← String.toList_inj, hName]
      simp
    have hFree' : '.' ∉ (String.ofList after).toList := by rwa [String.toList_ofList]
    rw [hText, splitExtension?_append hFree'] at h
    split at h
    · cases h
    · cases h
      exact ⟨hText, hFree'⟩
  · rw [splitExtension?, Text.splitLast?_of_not_mem hMem] at h
    cases h

/-- An extension that a name may end in. -/
def IsExtension (ext : String) : Prop := ext ≠ "" ∧ '.' ∉ ext.toList ∧ '/' ∉ ext.toList

section Named

variable {p : Path} {dir name front ext : String} (h : Named p dir name)

include h

theorem Named.extension? : p.extension? = (splitExtension? name).map Prod.snd := by
  rw [Path.extension?, h.fileName, Option.bind_some]

theorem Named.withExtension (ext : String) :
    p.withExtension ext =
      ⟨dir ++ (((splitExtension? name).map Prod.fst).getD name ++ "." ++ ext)⟩ := by
  rw [Path.withExtension, h.fileName]
  exact h.replace _

theorem Named.not_front {stem : String} (hName : name = stem ++ "." ++ ext) (hStem : stem ≠ "") :
    ¬ IsFront (dir ++ stem) := by
  intro hFront
  have hFree := h.slash_free
  rw [hName, String.append_assoc, String.toList_append, List.mem_append, not_or] at hFree
  exact hStem (hFront.last rfl hFree.1)

theorem Named.exists_stem (hExt : IsExtension ext) (hText : p.text = front ++ "." ++ ext)
    (hFront : ¬ IsFront front) :
    ∃ stem, front = dir ++ stem ∧ splitExtension? name = some (stem, ext) := by
  have hFree : '/' ∉ ("." ++ ext).toList := by simpa using hExt.2.2
  rw [h.text, String.append_assoc] at hText
  obtain ⟨stem, rfl, hName⟩ := h.front.suffix hFree hText
  have hStem : stem ≠ "" := by
    rintro rfl
    rw [String.append_empty] at hFront
    exact hFront h.front
  refine ⟨stem, rfl, ?_⟩
  rw [hName, ← String.append_assoc, splitExtension?_append hExt.2.1, if_neg hStem]

theorem Named.extension?_iff (hExt : IsExtension ext) :
    p.extension? = some ext ↔ ∃ front, p.text = front ++ "." ++ ext ∧ ¬ IsFront front := by
  rw [h.extension?]
  constructor
  · intro hSome
    obtain ⟨⟨stem, _⟩, hSplit, rfl⟩ := Option.map_eq_some_iff.mp hSome
    obtain ⟨hName, hDot⟩ := exists_stem_of_splitExtension? hSplit
    rw [hName, splitExtension?_append hDot] at hSplit
    refine ⟨dir ++ stem, ?_, h.not_front hName ?_⟩
    · rw [h.text, hName, ← String.append_assoc, ← String.append_assoc]
    · rintro rfl
      cases hSplit
  · rintro ⟨front, hText, hFront⟩
    obtain ⟨stem, -, hSplit⟩ := h.exists_stem hExt hText hFront
    rw [hSplit]
    rfl

end Named

section Nameless

variable {p : Path} {front ext : String} (h : Nameless p)

include h

theorem Nameless.extension? : p.extension? = none := by
  rw [Path.extension?, h.1, Option.bind_none]

theorem Nameless.text_ne (hExt : IsExtension ext) : p.text ≠ front ++ "." ++ ext := by
  intro hText
  obtain ⟨-, ahead, hDot | hSlash⟩ := h
  · exact hExt.2.1 (mem_of_append_eq (hText.symm.trans hDot) hExt.1)
  · exact hExt.2.2 (mem_of_append_eq (hText.symm.trans hSlash) hExt.1)

end Nameless

section Clean

variable {front ext : String} (p : Path)

/-- The extension of a cleaned path is what its text ends in after a dot that opens no name. -/
theorem extension?_clean_iff (hExt : IsExtension ext) :
    p.clean.extension? = some ext ↔
      ∃ front, p.clean.text = front ++ "." ++ ext ∧ ¬ IsFront front := by
  obtain ⟨dir, name, hNamed⟩ | hNameless := p.clean_named_or
  · exact hNamed.extension?_iff hExt
  · rw [hNameless.extension?]
    constructor
    · nofun
    · rintro ⟨front, hText, -⟩
      exact (hNameless.text_ne hExt hText).elim

/-- Another extension takes the place of the extension in the text. -/
theorem withExtension_clean (hExt : IsExtension ext) (hText : p.clean.text = front ++ "." ++ ext)
    (hFront : ¬ IsFront front) (new : String) :
    p.clean.withExtension new = ⟨front ++ "." ++ new⟩ := by
  obtain ⟨dir, name, hNamed⟩ | hNameless := p.clean_named_or
  · obtain ⟨stem, rfl, hSplit⟩ := hNamed.exists_stem hExt hText hFront
    rw [hNamed.withExtension, hSplit]
    simp only [Option.map_some, Option.getD_some, String.append_assoc]
  · exact (hNameless.text_ne hExt hText).elim

end Clean

end ModuleAtlas.Path
