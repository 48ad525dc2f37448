import ModuleAtlas.Label
import ModuleAtlas.Proofs.Files.Below
import ModuleAtlas.Proofs.Path.FileName
import ModuleAtlas.Proofs.ProjectRoot

/-!
# Labels and what they spell

A label spells a list of names: those on the way to a file, as far as they lie below the source
root, and at last the stem of the file's own name unless that is `index`. No name holds a slash, so
the label tells any two such lists apart. Modules come to share a label in three ways only: they
differ in the extension, both are `index` modules of one directory, or one is the `index` module of
the directory that the other one is named after.
-/

namespace ModuleAtlas.Labeler

open Files (IsName)
open ModuleAtlas.Path (IsFront)

/-! ## Stems -/

/-- The name that is left of a file name without its last extension; a dot in front opens none. -/
def IsStem (file name : String) : Prop :=
  file = name ∧ '.' ∉ name.toList.tail ∨
    name ≠ "" ∧ ∃ ext, '.' ∉ ext.toList ∧ file = name ++ "." ++ ext

def stemOf (file : String) : String := String.ofList (stem file.toList)

theorem stem_of_tail {file : List Char} (h : '.' ∉ file.tail) : stem file = file := by
  rw [stem]
  by_cases hMem : '.' ∈ file
  · cases file with
    | nil => cases hMem
    | cons c file =>
      rw [List.tail_cons] at h
      obtain rfl : '.' = c := (List.mem_cons.mp hMem).resolve_right h
      have hSplit := Text.splitLast?_append h []
      rw [List.nil_append] at hSplit
      rw [hSplit]
      rfl
  · rw [Text.splitLast?_of_not_mem hMem]

theorem stem_of_extension {name ext : List Char} (hName : name ≠ []) (hExt : '.' ∉ ext) :
    stem (name ++ '.' :: ext) = name := by
  rw [stem, Text.splitLast?_append hExt]
  simp [hName]

theorem stemOf_eq {file name : String} (h : IsStem file name) : stemOf file = name := by
  obtain ⟨rfl, hTail⟩ | ⟨hName, ext, hExt, rfl⟩ := h
  · rw [stemOf, stem_of_tail hTail, String.ofList_toList]
  · have hText : (name ++ "." ++ ext).toList = name.toList ++ '.' :: ext.toList := by simp
    rw [stemOf, hText, stem_of_extension (by simpa using hName) hExt, String.ofList_toList]

theorem isStem_stemOf (file : String) : IsStem file (stemOf file) := by
  by_cases hTail : '.' ∈ file.toList.tail
  · obtain ⟨before, after, hText, hFree⟩ := Text.exists_last_of_mem (List.mem_of_mem_tail hTail)
    have hSome : before ≠ [] := by
      rintro rfl
      rw [hText] at hTail
      exact hFree hTail
    refine .inr ⟨?_, String.ofList after, by rwa [String.toList_ofList], ?_⟩
    · rw [stemOf, hText, stem_of_extension hSome hFree]
      simpa using hSome
    · rw [stemOf, hText, stem_of_extension hSome hFree, ← String.toList_inj, hText]
      simp
  · left
    rw [stemOf, stem_of_tail hTail, String.ofList_toList]
    exact ⟨rfl, hTail⟩

theorem isStem_iff {file name : String} : IsStem file name ↔ stemOf file = name :=
  ⟨stemOf_eq, fun h => h ▸ isStem_stemOf file⟩

theorem mem_of_mem_stemOf {file : String} {c : Char} (h : c ∈ (stemOf file).toList) :
    c ∈ file.toList := by
  obtain ⟨hSame, -⟩ | ⟨-, ext, -, hText⟩ := isStem_stemOf file
  · rwa [hSame]
  · rw [hText, String.append_assoc, String.toList_append]
    exact List.mem_append_left _ h

/-! ## Keys -/

/-- What a label shows of a file name. -/
def shown (file : String) : List String :=
  if isIndex (stem file.toList) then [] else [stemOf file]

/-- The names that a label spells, given the names on the way to a file and its own at the end. -/
def keyOf (names : List String) : List String :=
  names.dropLast ++ (names.getLast?.map shown).getD []

/-- A relative path without the source root, if it starts with it. -/
def belowSource (l : Labeler) (relative : String) : String :=
  (Text.after? l.sourceRoot relative).getD relative

def key (l : Labeler) (relative : String) : List String :=
  keyOf (Path.mk (l.belowSource relative)).segments

def spell (key : List String) : String := if key = [] then "." else "/".intercalate key

/-- The relative path of a file in a directory. -/
def textOf (dir : List String) (file : String) : String := "/".intercalate (dir ++ [file])

@[simp] theorem keyOf_concat (dir : List String) (file : String) :
    keyOf (dir ++ [file]) = dir ++ shown file := by
  simp [keyOf]

theorem textOf_nil (file : String) : textOf [] file = file := by simp [textOf]

theorem textOf_of_ne_nil {dir : List String} (h : dir ≠ []) (file : String) :
    textOf dir file = "/".intercalate dir ++ "/" ++ file := by
  rw [textOf, String.intercalate_append_of_ne_nil h (by simp), String.intercalate_singleton]

theorem segments_spell {key : List String} (h : ∀ s ∈ key, '/' ∉ s.toList) :
    (Path.mk (spell key)).segments = if key = [] then ["."] else key := by
  rw [spell]
  split
  · decide
  · rename_i hSome
    exact Path.segments_intercalate h hSome

theorem spell_inj {key key' : List String} (h : ∀ s ∈ key, '/' ∉ s.toList ∧ s ≠ ".")
    (hOther : ∀ s ∈ key', '/' ∉ s.toList ∧ s ≠ ".") : spell key = spell key' ↔ key = key' := by
  constructor
  · intro hSame
    have hSegments := congrArg (Path.segments ∘ Path.mk) hSame
    rw [Function.comp_apply, Function.comp_apply, segments_spell fun s hs => (h s hs).1,
      segments_spell fun s hs => (hOther s hs).1] at hSegments
    -- A name that is a dot would be taken for the empty list.
    split at hSegments
    · split at hSegments
      · rename_i hNone hNone'
        rw [hNone, hNone']
      · exact ((hOther "." (by simp [← hSegments])).2 rfl).elim
    · split at hSegments
      · exact ((h "." (by simp [hSegments])).2 rfl).elim
      · exact hSegments
  · rintro rfl
    rfl

/-- What holds of all names on the way to a file still holds below a directory on the way. -/
theorem forall_mem_behind {P : String → Prop} {front names rest : List String}
    (h : ∀ s ∈ front ++ names ++ rest, P s) : ∀ s ∈ names ++ rest, P s := by
  intro s hs
  apply h
  rw [List.append_assoc]
  exact List.mem_append_right _ hs

section Named

variable {dir : List String} {file : String} (hNames : ∀ s ∈ dir ++ [file], IsName s)

include hNames

theorem segments_textOf : (Path.mk (textOf dir file)).segments = dir ++ [file] :=
  Path.segments_intercalate (fun s hs => (hNames s hs).2.2.2) (by simp)

theorem labelRelative_of_belowSource {l : Labeler} {relative : String}
    (hBelow : l.belowSource relative = textOf dir file) :
    l.labelRelative relative = spell (keyOf (dir ++ [file])) := by
  have hFile : '/' ∉ file.toList := (hNames file (by simp)).2.2.2
  rw [belowSource] at hBelow
  rw [labelRelative, keyOf_concat, shown, spell]
  dsimp only
  rw [hBelow]
  by_cases hDir : dir = []
  · subst hDir
    rw [textOf_nil, Text.splitLast?_of_not_mem hFile]
    by_cases hIndex : isIndex (stem file.toList) = true
    · simp [hIndex]
    · simp [hIndex, stemOf]
  · have hText : (textOf dir file).toList = ("/".intercalate dir).toList ++ '/' :: file.toList := by
      rw [textOf_of_ne_nil hDir]
      simp
    rw [hText, Text.splitLast?_append hFile]
    by_cases hIndex : isIndex (stem file.toList) = true
    · simp [hIndex, hDir, -String.toList_intercalate]
    · have hJoined := textOf_of_ne_nil hDir (stemOf file)
      rw [textOf, stemOf] at hJoined
      simp [hIndex, stemOf, hJoined, ← String.toList_inj]

end Named

/-! ## The source root -/

/-- The names that every path below the source root starts with. -/
def sourceNames (l : Labeler) : List String := (Path.mk l.sourceRoot).segments.dropLast

theorem isFront_sourceRoot (root : ProjectRoot) (sourceRoot : String) :
    IsFront (ofSourceRoot root sourceRoot).sourceRoot := by
  rw [ofSourceRoot]
  dsimp only
  rw [Text.closeWithSlash]
  split
  · rename_i hClosed
    rcases Bool.or_eq_true_iff.mp hClosed with hEmpty | hSlash
    · exact .inl (of_decide_eq_true hEmpty)
    · exact .inr (Text.endsWith_iff.mp hSlash)
  · exact .inr ⟨sourceRoot, rfl⟩

section Source

variable {l : Labeler} (hFront : IsFront l.sourceRoot)

include hFront

theorem segments_source_append (rest : String) :
    (Path.mk (l.sourceRoot ++ rest)).segments = l.sourceNames ++ (Path.mk rest).segments := by
  rw [sourceNames]
  obtain hEmpty | ⟨above, hAbove⟩ := hFront
  · have hNone : (Path.mk "").segments.dropLast = [] := by decide
    rw [hEmpty, hNone, String.empty_append, List.nil_append]
  · have hLast : (Path.mk (above ++ "/")).segments.dropLast = (Path.mk above).segments := by
      rw [← String.append_empty (s := above ++ "/"), Path.segments_append_slash]
      have hNone : (Path.mk "").segments = [""] := by decide
      rw [hNone, List.dropLast_concat]
    rw [hAbove, hLast, Path.segments_append_slash]

variable {dir : List String} {file : String} (hNames : ∀ s ∈ dir ++ [file], IsName s)

include hNames

theorem startsWith_source_iff :
    Text.startsWith (textOf dir file) l.sourceRoot = true ↔ l.sourceNames <+: dir := by
  rw [Text.startsWith_iff]
  constructor
  · rintro ⟨rest, hText⟩
    have hSegments := segments_textOf hNames
    rw [hText, segments_source_append hFront] at hSegments
    obtain hNone | ⟨names, last, hRest⟩ := List.eq_nil_or_concat' (Path.mk rest).segments
    · exact (Path.segments_ne_nil _ hNone).elim
    · rw [hRest, ← List.append_assoc] at hSegments
      exact ⟨names, List.append_inj_left' hSegments rfl⟩
  · rintro ⟨names, rfl⟩
    have hRest : ∀ s ∈ names ++ [file], IsName s := forall_mem_behind hNames
    refine ⟨textOf names file, ?_⟩
    have hSame : Path.mk (textOf (l.sourceNames ++ names) file) =
        Path.mk (l.sourceRoot ++ textOf names file) := by
      apply Path.eq_of_segments_eq
      rw [segments_textOf hNames, segments_source_append hFront, segments_textOf hRest,
        List.append_assoc]
    exact congrArg Path.text hSame

/-- What is left below the source root is again the path of a file. -/
theorem exists_belowSource :
    ∃ names, dir = (if l.sourceNames <+: dir then l.sourceNames else []) ++ names ∧
      l.belowSource (textOf dir file) = textOf names file := by
  by_cases hInside : l.sourceNames <+: dir
  · obtain ⟨rest, hRest⟩ := Text.startsWith_iff.mp ((startsWith_source_iff hFront hNames).mpr hInside)
    have hSegments := segments_textOf hNames
    obtain ⟨names, rfl⟩ := hInside
    rw [hRest, segments_source_append hFront, List.append_assoc, List.append_cancel_left_eq]
      at hSegments
    refine ⟨names, by simp, ?_⟩
    rw [belowSource, Text.after?_eq_some_iff.mpr hRest, Option.getD_some]
    have hSame : Path.mk rest = Path.mk (textOf names file) := by
      apply Path.eq_of_segments_eq
      rw [hSegments, segments_textOf (forall_mem_behind hNames)]
    exact congrArg Path.text hSame
  · refine ⟨dir, by simp [hInside], ?_⟩
    have hOutside : Text.startsWith (textOf dir file) l.sourceRoot = false := by
      rw [Bool.eq_false_iff, ne_eq, startsWith_source_iff hFront hNames]
      exact hInside
    rw [Text.startsWith, Option.isSome_eq_false_iff, Option.isNone_iff_eq_none] at hOutside
    rw [belowSource, hOutside, Option.getD_none]

theorem exists_key :
    ∃ names, dir = (if l.sourceNames <+: dir then l.sourceNames else []) ++ names ∧
      l.key (textOf dir file) = names ++ shown file ∧
      l.labelRelative (textOf dir file) = spell (l.key (textOf dir file)) := by
  obtain ⟨names, hDir, hBelow⟩ := exists_belowSource hFront hNames
  have hRest : ∀ s ∈ names ++ [file], IsName s := forall_mem_behind (hDir ▸ hNames)
  have hKey : l.key (textOf dir file) = keyOf (names ++ [file]) := by
    rw [key, hBelow, segments_textOf hRest]
  refine ⟨names, hDir, ?_, ?_⟩
  · rw [hKey, keyOf_concat]
  · rw [hKey, labelRelative_of_belowSource hRest hBelow]

end Source

/-! ## Files that share a label -/

/-- A file that a label can stand for: the names on the way to it, and its own name. -/
structure IsFile (dir : List String) (file : String) : Prop where
  names : ∀ s ∈ dir ++ [file], IsName s
  stem : ¬ IsStem file "."

/-- Files that differ in the extension, or are `index` modules of one directory, or of which one is
the `index` module of the directory that the other one is named after. -/
inductive Merge : List String → String → List String → String → Prop
  | extension {dir : List String} {file file' name : String} :
      IsStem file name → IsStem file' name → Merge dir file dir file'
  | letterCase {dir : List String} {file file' name name' : String} :
      IsStem file name → isIndex name.toList = true →
      IsStem file' name' → isIndex name'.toList = true → Merge dir file dir file'
  | directory {dir : List String} {file file' name name' : String} :
      IsStem file name → isIndex name.toList = true →
      IsStem file' name' → isIndex name'.toList = false → Merge (dir ++ [name']) file dir file'
  | directory' {dir : List String} {file file' name name' : String} :
      IsStem file name → isIndex name.toList = false →
      IsStem file' name' → isIndex name'.toList = true → Merge dir file (dir ++ [name]) file'

theorem shown_of_isStem {file name : String} (h : IsStem file name) :
    shown file = if isIndex name.toList then [] else [name] := by
  obtain rfl := stemOf_eq h
  rw [shown, stemOf, String.toList_ofList]

theorem merge_iff {dir dir' : List String} {file file' : String} :
    dir ++ shown file = dir' ++ shown file' ↔ Merge dir file dir' file' := by
  constructor
  · intro h
    have hStem := isStem_stemOf file
    have hStem' := isStem_stemOf file'
    rw [shown_of_isStem hStem, shown_of_isStem hStem'] at h
    cases hIndex : isIndex (stemOf file).toList with
    | true =>
      cases hIndex' : isIndex (stemOf file').toList with
      | true =>
        obtain rfl : dir = dir' := by simpa [hIndex, hIndex'] using h
        exact .letterCase hStem hIndex hStem' hIndex'
      | false =>
        obtain rfl : dir = dir' ++ [stemOf file'] := by simpa [hIndex, hIndex'] using h
        exact .directory hStem hIndex hStem' hIndex'
    | false =>
      cases hIndex' : isIndex (stemOf file').toList with
      | true =>
        obtain rfl : dir ++ [stemOf file] = dir' := by simpa [hIndex, hIndex'] using h
        exact .directory' hStem hIndex hStem' hIndex'
      | false =>
        rw [hIndex, hIndex', if_neg Bool.false_ne_true, if_neg Bool.false_ne_true] at h
        obtain ⟨rfl, hSame⟩ := List.append_inj' h rfl
        have hSame : stemOf file = stemOf file' := List.singleton_injective hSame
        exact .extension hStem (hSame ▸ hStem')
  · intro h
    cases h with
    | extension hStem hStem' => rw [shown_of_isStem hStem, shown_of_isStem hStem']
    | letterCase hStem hIndex hStem' hIndex' | directory hStem hIndex hStem' hIndex'
    | directory' hStem hIndex hStem' hIndex' =>
      rw [shown_of_isStem hStem, shown_of_isStem hStem']
      simp [hIndex, hIndex']

theorem IsFile.spelled {dir : List String} {file : String} (h : IsFile dir file) :
    ∀ s ∈ dir ++ shown file, '/' ∉ s.toList ∧ s ≠ "." := by
  intro s hs
  rcases List.mem_append.mp hs with hDir | hFile
  · obtain ⟨-, hHere, -, hSlash⟩ := h.names s (List.mem_append_left _ hDir)
    exact ⟨hSlash, hHere⟩
  · rw [shown] at hFile
    split at hFile
    · cases hFile
    · obtain rfl := List.mem_singleton.mp hFile
      refine ⟨fun hSlash => ?_, fun hHere => h.stem (isStem_iff.mpr hHere)⟩
      exact (h.names file (by simp)).2.2.2 (mem_of_mem_stemOf hSlash)

section Pair

variable {l : Labeler} (hFront : IsFront l.sourceRoot) {dir dir' : List String}
  {file file' : String} (h : IsFile dir file) (h' : IsFile dir' file')

include hFront h h'

theorem labelRelative_eq_iff :
    l.labelRelative (textOf dir file) = l.labelRelative (textOf dir' file') ↔
      l.key (textOf dir file) = l.key (textOf dir' file') := by
  obtain ⟨names, hDir, hKey, hLabel⟩ := exists_key hFront h.names
  obtain ⟨names', hDir', hKey', hLabel'⟩ := exists_key hFront h'.names
  have hSpelled := h.spelled
  have hSpelled' := h'.spelled
  rw [hDir] at hSpelled
  rw [hDir'] at hSpelled'
  rw [hLabel, hLabel', hKey, hKey']
  exact spell_inj (forall_mem_behind hSpelled) (forall_mem_behind hSpelled')

/-- Below one source root, or both outside it, files share a label only in the ways of `Merge`. -/
theorem labelRelative_eq_iff_merge (hSide : l.sourceNames <+: dir ↔ l.sourceNames <+: dir') :
    l.labelRelative (textOf dir file) = l.labelRelative (textOf dir' file') ↔
      Merge dir file dir' file' := by
  obtain ⟨names, hDir, hKey, -⟩ := exists_key hFront h.names
  obtain ⟨names', hDir', hKey', -⟩ := exists_key hFront h'.names
  simp only [hSide] at hDir
  generalize (if l.sourceNames <+: dir' then l.sourceNames else []) = front at hDir hDir'
  rw [labelRelative_eq_iff hFront h h', hKey, hKey', ← merge_iff, hDir, hDir', List.append_assoc,
    List.append_assoc, List.append_cancel_left_eq]

end Pair

theorem isName_withExtension {name ext : String} (hName : IsName name) (hDot : '.' ∉ ext.toList)
    (hSlash : '/' ∉ ext.toList) : IsName (name ++ "." ++ ext) := by
  obtain ⟨hEmpty, hHere, hUp, hFree⟩ := hName
  have hStem : stemOf (name ++ "." ++ ext) = name := stemOf_eq (.inr ⟨hEmpty, ext, hDot, rfl⟩)
  -- Neither the empty name nor one of dots alone leaves a name as its stem.
  have hNoName : ∀ s ∈ ["", ".", ".."], stemOf s = "" ∨ stemOf s = "." := by decide
  have hOther : ∀ s ∈ ["", ".", ".."], name ++ "." ++ ext ≠ s := by
    rintro s hs rfl
    have hName := hNoName _ hs
    rw [hStem] at hName
    exact hName.elim hEmpty hHere
  exact ⟨hOther _ (by simp), hOther _ (by simp), hOther _ (by simp),
    by simpa using ⟨hFree, hSlash⟩⟩

theorem isFile_withExtension {dir : List String} {name ext : String}
    (hNames : ∀ s ∈ dir ++ [name], IsName s) (hDot : '.' ∉ ext.toList) (hSlash : '/' ∉ ext.toList) :
    IsFile dir (name ++ "." ++ ext) ∧ IsStem (name ++ "." ++ ext) name := by
  have hName := hNames name (by simp)
  have hStem : IsStem (name ++ "." ++ ext) name := .inr ⟨hName.1, ext, hDot, rfl⟩
  refine ⟨⟨?_, fun hHere => ?_⟩, hStem⟩
  · intro s hs
    rcases List.mem_append.mp hs with hDir | hFile
    · exact hNames s (List.mem_append_left _ hDir)
    · rw [List.mem_singleton.mp hFile]
      exact isName_withExtension hName hDot hSlash
  · exact hName.2.1 ((stemOf_eq hStem).symm.trans (stemOf_eq hHere))

/-- A directory and the file named after it lie on the same side of the source root, unless the
directory is the source root. -/
theorem sourceNames_prefix_concat {l : Labeler} (hFront : IsFront l.sourceRoot) {dir : List String}
    {last : String} (hNames : ∀ s ∈ dir ++ [last], IsName s)
    (hOther : textOf dir last ++ "/" ≠ l.sourceRoot) :
    l.sourceNames <+: dir ++ [last] ↔ l.sourceNames <+: dir := by
  rw [List.prefix_concat_iff, or_iff_right]
  intro hSource
  obtain hEmpty | ⟨above, hAbove⟩ := hFront
  · have hNone : (Path.mk "").segments.dropLast = [] := by decide
    rw [sourceNames, hEmpty, hNone] at hSource
    simp at hSource
  · have hSegments := segments_source_append (.inr ⟨above, hAbove⟩) ""
    rw [String.append_empty, hAbove, hSource, ← String.append_empty (s := above ++ "/"),
      Path.segments_append_slash, List.append_cancel_right_eq, ← segments_textOf hNames] at hSegments
    have hText : above = textOf dir last := congrArg Path.text (Path.eq_of_segments_eq hSegments)
    rw [← hText] at hOther
    exact hOther hAbove.symm

theorem index_shares_label {l : Labeler} (hFront : IsFront l.sourceRoot) {dir : List String}
    {last ext ext' : String} (hNames : ∀ s ∈ dir ++ [last], IsName s)
    (hLast : isIndex last.toList = false) (hOther : textOf dir last ++ "/" ≠ l.sourceRoot)
    (hDot : '.' ∉ ext.toList) (hSlash : '/' ∉ ext.toList) (hDot' : '.' ∉ ext'.toList)
    (hSlash' : '/' ∉ ext'.toList) :
    l.labelRelative (textOf dir last ++ "/index." ++ ext) =
      l.labelRelative (textOf dir last ++ "." ++ ext') := by
  have hInner : textOf dir last ++ "/index." ++ ext =
      textOf (dir ++ [last]) ("index" ++ "." ++ ext) := by
    have hPiece : "/index." = "/" ++ ("index" ++ ".") := rfl
    have hText : textOf (dir ++ [last]) ("index" ++ "." ++ ext) =
        textOf dir last ++ "/" ++ ("index" ++ "." ++ ext) := textOf_of_ne_nil (by simp) _
    rw [hText, hPiece]
    simp only [String.append_assoc]
  have hBeside : textOf dir last ++ "." ++ ext' = textOf dir (last ++ "." ++ ext') := by
    by_cases hDir : dir = []
    · rw [hDir, textOf_nil, textOf_nil]
    · rw [textOf_of_ne_nil hDir, textOf_of_ne_nil hDir]
      simp only [String.append_assoc]
  have hIndexName : ∀ s ∈ (dir ++ [last]) ++ ["index"], IsName s := by
    intro s hs
    rcases List.mem_append.mp hs with hDir | hFile
    · exact hNames s hDir
    · rw [List.mem_singleton.mp hFile]
      decide
  obtain ⟨hFile, hStem⟩ := isFile_withExtension hIndexName hDot hSlash
  obtain ⟨hFile', hStem'⟩ := isFile_withExtension hNames hDot' hSlash'
  rw [hInner, hBeside, labelRelative_eq_iff_merge hFront hFile hFile'
    (sourceNames_prefix_concat hFront hNames hOther)]
  exact .directory hStem (by decide) hStem' hLast

theorem exists_names_of_internal {root p : Path} (hRoot : root.isAbsolute = true)
    (hp : p.isAbsolute = true) (hInternal : (ProjectRoot.ofPath root).locate p = .internal) :
    (ProjectRoot.ofPath root).normalize p = "." ∨
      ∃ dir file, (∀ s ∈ dir ++ [file], IsName s) ∧
        (ProjectRoot.ofPath root).normalize p = textOf dir file := by
  obtain ⟨up, shared, down, hSeen⟩ := ProjectRoot.exists_seen hRoot hp
  refine (hSeen.normalize_below (hSeen.up_eq_zero hInternal)).imp_right ?_
  rintro ⟨names, hSome, hNames, hText⟩
  obtain rfl | ⟨dir, file, rfl⟩ := List.eq_nil_or_concat' names
  · exact (hSome rfl).elim
  · exact ⟨dir, file, hNames, hText⟩

/-- Labels tell the keys of files apart and are spelled by them: the names below the source root,
at last the stem of the file unless it is `index`. So a directory's `index` module and the file
named after the directory share a label, and on one side of the source root files share a label only
in the ways of `Merge`. -/
theorem labels_merge_by_key (root : Path) (sourceRoot : String) :
    let l := ofSourceRoot (.ofPath root) sourceRoot
    (root.isAbsolute = true → ∀ p : Path, p.isAbsolute = true → l.root.locate p = .internal →
      l.root.normalize p = "." ∨ ∃ dir file, (∀ s ∈ dir ++ [file], IsName s) ∧
        l.root.normalize p = textOf dir file) ∧
    (∀ dir file, IsFile dir file → l.labelRelative (textOf dir file) =
      if l.key (textOf dir file) = [] then "." else "/".intercalate (l.key (textOf dir file))) ∧
    (∀ dir file dir' file', IsFile dir file → IsFile dir' file' →
      (l.labelRelative (textOf dir file) = l.labelRelative (textOf dir' file') ↔
        l.key (textOf dir file) = l.key (textOf dir' file'))) ∧
    (∀ dir last ext ext', (∀ s ∈ dir ++ [last], IsName s) → isIndex last.toList = false →
      textOf dir last ++ "/" ≠ l.sourceRoot → '.' ∉ ext.toList → '/' ∉ ext.toList →
      '.' ∉ ext'.toList → '/' ∉ ext'.toList →
      l.labelRelative (textOf dir last ++ "/index." ++ ext) =
        l.labelRelative (textOf dir last ++ "." ++ ext')) ∧
    ∀ dir file dir' file', IsFile dir file → IsFile dir' file' →
      (Text.startsWith (textOf dir file) l.sourceRoot = true ↔
        Text.startsWith (textOf dir' file') l.sourceRoot = true) →
      (l.labelRelative (textOf dir file) = l.labelRelative (textOf dir' file') ↔
        Merge dir file dir' file') := by
  intro l
  have hFront : IsFront l.sourceRoot := isFront_sourceRoot _ _
  refine ⟨fun hRoot p hp hInternal => exists_names_of_internal hRoot hp hInternal,
    fun dir file hFile => ?_, fun dir file dir' file' => labelRelative_eq_iff hFront,
    fun dir last ext ext' hNames hLast hOther => index_shares_label hFront hNames hLast hOther,
    fun dir file dir' file' hFile hFile' hSide => ?_⟩
  · obtain ⟨-, -, -, hLabel⟩ := exists_key hFront hFile.names
    exact hLabel
  · rw [startsWith_source_iff hFront hFile.names, startsWith_source_iff hFront hFile'.names] at hSide
    exact labelRelative_eq_iff_merge hFront hFile hFile' hSide

/-- The source root itself is no directory that a file beside it can stand for. -/
example : (ofSourceRoot (.ofPath ⟨"/proj"⟩) "src").labelRelative "src/index.ts" = "." ∧
    (ofSourceRoot (.ofPath ⟨"/proj"⟩) "src").labelRelative "src.ts" = "src" := by decide +kernel

theorem button_shares_label :
    (ofSourceRoot (.ofPath ⟨"/proj"⟩) "src").labelRelative "src/ui/Button/index.tsx" =
      (ofSourceRoot (.ofPath ⟨"/proj"⟩) "src").labelRelative "src/ui/Button.ts" ∧
    Merge ["src", "ui", "Button"] "INDEX.d.ts" ["src", "ui", "Button"] "INDEX.d.js" ∧
    (ofSourceRoot (.ofPath ⟨"/proj"⟩) "src").labelRelative "src/ui/Button/INDEX.d.ts" =
      "ui/Button/INDEX.d" := by
  obtain ⟨-, hLabel, -, hDirectory, hMerge⟩ := labels_merge_by_key ⟨"/proj"⟩ "src"
  have hNames : ∀ file ∈ ["INDEX.d.ts", "INDEX.d.js"],
      (∀ s ∈ ["src", "ui", "Button"] ++ [file], IsName s) ∧ stemOf file ≠ "." := by decide
  have hFile : ∀ file ∈ ["INDEX.d.ts", "INDEX.d.js"], IsFile ["src", "ui", "Button"] file :=
    fun file hMem => ⟨(hNames file hMem).1, fun hHere => (hNames file hMem).2 (stemOf_eq hHere)⟩
  have hShared := hDirectory ["src", "ui"] "Button" "tsx" "ts" (by decide) (by decide) (by decide)
    (by decide) (by decide) (by decide) (by decide)
  have hSpelled := hLabel _ _ (hFile "INDEX.d.ts" (by simp))
  refine ⟨hShared, (hMerge _ _ _ _ (hFile _ (by simp)) (hFile _ (by simp)) ?_).mp ?_, ?_⟩
  · decide +kernel
  · decide +kernel
  · exact hSpelled.trans (by decide +kernel)

end ModuleAtlas.Labeler
