import ModuleAtlas.Project.Files
import ModuleAtlas.Proofs.Files.OneFile
import ModuleAtlas.Proofs.Path.FileName
import ModuleAtlas.Proofs.Resolver

/-!
# Resolution by probing

A candidate is cleaned, so the paths tried for it can be read off its text. All paths for a specifier
form one list, in which the first file is the answer. Paths behind the answer are never looked at,
so a file can come or go unless one of the paths up to the answer leads to it.
-/

namespace ModuleAtlas

open ModuleAtlas.Path (IsFront IsExtension)

instance (dir : String) : Decidable (IsFront dir) :=
  decidable_of_iff (dir = "" ∨ Text.endsWith dir "/" = true) (by rw [Text.endsWith_iff, IsFront])

namespace Probe

/-! ## The tried texts -/

/-- The output extensions, each with the source extensions that it stands for, in the order of
trial. -/
def swaps : List (String × String) :=
  [("js", "ts"), ("js", "tsx"), ("jsx", "tsx"), ("mjs", "mts"), ("cjs", "cts")]

/-- A text with an extension at its end changed to another one. A dot that opens a name starts no
extension. -/
def swapped? (text : String) (swap : String × String) : Option String :=
  (Text.before? ("." ++ swap.1) text).bind fun front =>
    if IsFront front then none else some (front ++ "." ++ swap.2)

/-- The texts tried for the text of a candidate, in order. -/
def listing (isDirectory : Bool) (text : String) : List String :=
  text :: swaps.filterMap (swapped? text)
    ++ extensions.map (text ++ "." ++ ·)
    ++ if isDirectory then extensions.map (Text.closeWithSlash text ++ "index." ++ ·) else []

theorem isExtension_of_mem_swaps {swap : String × String} (h : swap ∈ swaps) :
    IsExtension swap.1 := by
  have hAll : ∀ swap ∈ swaps, swap.1 ≠ "" ∧ '.' ∉ swap.1.toList ∧ '/' ∉ swap.1.toList := by
    decide +kernel
  exact hAll swap h

theorem sourcesOf_eq (ext : String) :
    sourcesOf ext = swaps.filterMap fun swap => if swap.1 = ext then some swap.2 else none := by
  fun_cases sourcesOf ext with
  | case1 => decide +kernel
  | case2 => decide +kernel
  | case3 => decide +kernel
  | case4 => decide +kernel
  | case5 _ hJs hJsx hMjs hCjs =>
    symm
    rw [List.filterMap_eq_nil_iff]
    rintro swap hSwap
    apply if_neg
    rintro rfl
    have hOutput : ∀ swap ∈ swaps,
        swap.1 = "js" ∨ swap.1 = "jsx" ∨ swap.1 = "mjs" ∨ swap.1 = "cjs" := by
      decide +kernel
    rcases hOutput swap hSwap with hSame | hSame | hSame | hSame
    · exact hJs hSame
    · exact hJsx hSame
    · exact hMjs hSame
    · exact hCjs hSame

section Clean

variable (p : Path) {swap : String × String}

theorem swapped?_clean (h : IsExtension swap.1) :
    (swapped? p.clean.text swap).map Path.mk =
      if p.clean.extension? = some swap.1 then some (p.clean.withExtension swap.2) else none := by
  by_cases hExtension : p.clean.extension? = some swap.1
  · obtain ⟨front, hText, hFront⟩ := (Path.extension?_clean_iff p h).mp hExtension
    have hBefore : Text.before? ("." ++ swap.1) p.clean.text = some front := by
      rw [Text.before?_eq_some_iff, hText, String.append_assoc]
    rw [if_pos hExtension, swapped?, hBefore, Option.bind_some, if_neg hFront, Option.map_some,
      Path.withExtension_clean p h hText hFront]
  · have hNone : swapped? p.clean.text swap = none := by
      rw [swapped?, Option.bind_eq_none_iff]
      intro front hBefore
      rw [Text.before?_eq_some_iff, ← String.append_assoc] at hBefore
      by_contra hSome
      apply hExtension
      refine (Path.extension?_clean_iff p h).mpr ⟨front, hBefore, fun hFront => ?_⟩
      exact hSome (if_pos hFront)
    rw [if_neg hExtension, hNone, Option.map_none]

theorem swaps_clean :
    ((p.clean.extension?.map sourcesOf).getD []).map p.clean.withExtension =
      (swaps.filterMap (swapped? p.clean.text)).map Path.mk := by
  have hSwapped : (swaps.filterMap (swapped? p.clean.text)).map Path.mk =
      swaps.filterMap fun swap =>
        if p.clean.extension? = some swap.1 then some (p.clean.withExtension swap.2) else none := by
    rw [List.map_filterMap]
    exact List.filterMap_congr fun swap hSwap => swapped?_clean p (isExtension_of_mem_swaps hSwap)
  rw [hSwapped]
  cases hExtension : p.clean.extension? with
  | none => simp
  | some ext =>
    rw [Option.map_some, Option.getD_some, sourcesOf_eq, List.map_filterMap]
    apply List.filterMap_congr
    intro swap _
    by_cases hSame : swap.1 = ext
    · simp [hSame]
    · simp [hSame, Ne.symm hSame]

theorem join_index (ext : String) :
    p.join ⟨"index." ++ ext⟩ = ⟨Text.closeWithSlash p.text ++ "index." ++ ext⟩ := by
  have hRelative : (Path.mk ("index." ++ ext)).isAbsolute = false := by
    simp [Path.isAbsolute]
  rw [Path.join, hRelative, Text.closeWithSlash]
  by_cases hEmpty : p.text = ""
  · simp [hEmpty]
  · by_cases hSlash : Text.endsWith p.text "/"
    · simp [hEmpty, hSlash, String.append_assoc]
    · simp only [hEmpty, hSlash, decide_false, Bool.or_false, Bool.false_eq_true, if_false]
      rw [← String.append_assoc]

/-- The paths tried for a cleaned candidate are those that its text tells. -/
theorem paths_clean (isDirectory : Path → Bool) :
    paths isDirectory p.clean = (listing (isDirectory p.clean) p.clean.text).map Path.mk := by
  have hAdded : extensions.map p.clean.withSuffix =
      (extensions.map (p.clean.text ++ "." ++ ·)).map Path.mk := by
    rw [List.map_map]
    rfl
  have hIndex : indexFiles p.clean =
      (extensions.map (Text.closeWithSlash p.clean.text ++ "index." ++ ·)).map Path.mk := by
    rw [indexFiles, List.map_map]
    exact List.map_congr_left fun ext _ => join_index p.clean ext
  rw [paths, spellings, listing, swaps_clean, hAdded, hIndex, List.map_append, List.map_append,
    List.map_cons]
  cases isDirectory p.clean with
  | false => rfl
  | true => rfl

end Clean

example : swaps.filterMap (swapped? "src/api.v2.js") = ["src/api.v2.ts", "src/api.v2.tsx"] ∧
    swaps.filterMap (swapped? "src/.js") = [] := by decide +kernel

/-! ## The paths looked at -/

/-- The paths up to the first file, that one included. -/
def asked (isFile : Path → Bool) : List Path → List Path
  | [] => []
  | p :: rest => p :: if isFile p then [] else asked isFile rest

/-- The first file is the same for another file system that agrees on the paths up to it. -/
theorem find?_of_asked {isFile isFile' : Path → Bool} {paths : List Path}
    (h : ∀ p ∈ asked isFile paths, isFile' p = isFile p) :
    paths.find? isFile' = paths.find? isFile := by
  induction paths with
  | nil => rfl
  | cons p rest ih =>
    rw [asked] at h
    have hFirst := h p (.head _)
    cases hFile : isFile p with
    | true =>
      rw [hFile] at hFirst
      rw [List.find?_cons_of_pos hFirst, List.find?_cons_of_pos hFile]
    | false =>
      rw [hFile] at hFirst h
      rw [List.find?_cons_of_neg (by simp [hFirst]), List.find?_cons_of_neg (by simp [hFile])]
      exact ih fun q hq => h q (.tail _ hq)

theorem file?_fixpoint {isFile isDirectory : Path → Bool} {candidate x : Path}
    (h : file? isFile isDirectory candidate = some x) :
    isFile x = true ∧ file? isFile isDirectory x = some x := by
  have hFile := List.find?_some h
  exact ⟨hFile, file?_self hFile⟩

end Probe

namespace Resolver

open Files (Disk Content Place)

variable {r : Resolver} {importer : Path} {s : String}

/-- All paths tried for a specifier, in order. -/
def listing (r : Resolver) (isDirectory : Path → Bool) (importer : Path) (s : String) : List Path :=
  (r.candidates importer s).flatMap fun candidate =>
    (Probe.listing (isDirectory candidate) candidate.text).map Path.mk

theorem exists_clean_of_mem_candidates {candidate : Path} (h : candidate ∈ r.candidates importer s) :
    ∃ p : Path, candidate = p.clean := by
  rw [candidates] at h
  split at h
  · exact ⟨_, List.mem_singleton.mp h⟩
  split at h
  · exact ⟨_, List.mem_singleton.mp h⟩
  split at h
  · exact ⟨_, List.mem_singleton.mp h⟩
  rcases List.mem_append.mp h with hBase | hVendored
  · obtain ⟨base, -, rfl⟩ := Option.map_eq_some_iff.mp (Option.mem_toList.mp hBase)
    exact ⟨_, rfl⟩
  · exact ⟨_, List.mem_singleton.mp hVendored⟩

theorem listing_eq (isDirectory : Path → Bool) :
    r.listing isDirectory importer s =
      (r.candidates importer s).flatMap (Probe.paths isDirectory) := by
  apply List.flatMap_congr
  intro candidate hCandidate
  obtain ⟨p, rfl⟩ := exists_clean_of_mem_candidates hCandidate
  rw [Probe.paths_clean]

theorem resolve?_eq_find? (isFile isDirectory : Path → Bool) (importer : ModuleId) :
    r.resolve? isFile isDirectory importer s =
      ((r.listing isDirectory importer.path s).find? isFile).map ModuleId.ofPath := by
  rw [resolve?, listing_eq, List.find?_flatMap]
  rfl

theorem listing_congr {isDirectory isDirectory' : Path → Bool}
    (h : ∀ candidate ∈ r.candidates importer s, isDirectory' candidate = isDirectory candidate) :
    r.listing isDirectory' importer s = r.listing isDirectory importer s := by
  apply List.flatMap_congr
  intro candidate hCandidate
  rw [h candidate hCandidate]

/-- The paths that are looked at for a specifier. -/
def asked (r : Resolver) (isFile isDirectory : Path → Bool) (importer : Path) (s : String) :
    List Path :=
  Probe.asked isFile (r.listing isDirectory importer s)

theorem resolve?_of_asked {isFile isDirectory isFile' isDirectory' : Path → Bool}
    {importer : ModuleId}
    (hDirectories : ∀ candidate ∈ r.candidates importer.path s,
      isDirectory' candidate = isDirectory candidate)
    (hFiles : ∀ p ∈ r.asked isFile isDirectory importer.path s, isFile' p = isFile p) :
    r.resolve? isFile' isDirectory' importer s = r.resolve? isFile isDirectory importer s := by
  rw [resolve?_eq_find?, resolve?_eq_find?, listing_congr hDirectories,
    Probe.find?_of_asked hFiles]

/-- A file that differs between two disks makes no difference, unless a path that is looked at leads
to it. -/
theorem resolve?_differ {importer : ModuleId} {d d' : Disk} {dir : Place} {name : String}
    {old? new? : Option Content} (h : Files.DifferAt dir name old? new? d.tree d'.tree)
    (hHere : d'.here = d.here)
    (hOld : ∀ p ∈ r.asked d.isFile d.isDirectory importer.path s,
      old? ≠ none → d.canonical p ≠ .ok (name :: dir))
    (hNew : ∀ p ∈ r.asked d.isFile d.isDirectory importer.path s,
      new? ≠ none → d'.canonical p ≠ .ok (name :: dir)) :
    d'.resolve? r importer s = d.resolve? r importer s :=
  resolve?_of_asked (fun candidate _ => Disk.isDirectory_differ h hHere candidate)
    fun p hp => Disk.isFile_differ h hHere p (hOld p hp) (hNew p hp)

/-- A specifier resolves to the first file of its listing. What the probe of a candidate finds is a
file, and is found again when it is itself the candidate. Nothing else counts than which candidates
are directories and which paths are files, up to the first file: on a disk, a file that none of
these paths leads to may come or go. -/
theorem resolves_to_first_file (r : Resolver) (importer : ModuleId) (s : String) :
    (∀ isFile isDirectory,
      r.resolve? isFile isDirectory importer s =
        ((r.listing isDirectory importer.path s).find? isFile).map ModuleId.ofPath ∧
      (r.resolve? isFile isDirectory importer s = none ↔
        ∀ p ∈ r.listing isDirectory importer.path s, isFile p = false) ∧
      (∀ candidate p, Probe.file? isFile isDirectory candidate = some p →
        isFile p = true ∧ Probe.file? isFile isDirectory p = some p) ∧
      ∀ isFile' isDirectory',
        (∀ candidate ∈ r.candidates importer.path s,
          isDirectory' candidate = isDirectory candidate) →
        (∀ p ∈ r.asked isFile isDirectory importer.path s, isFile' p = isFile p) →
        r.resolve? isFile' isDirectory' importer s = r.resolve? isFile isDirectory importer s) ∧
    ∀ (d : Disk) (dir : Place) (name : String) (content : Content),
      (∀ d', d.tree.get? (name :: dir) = none → d.put dir name (.file content) = .ok d' →
        (∀ p ∈ r.asked d.isFile d.isDirectory importer.path s,
          d'.canonical p ≠ .ok (name :: dir)) →
        d'.resolve? r importer s = d.resolve? r importer s) ∧
      (d.tree.get? (name :: dir) = some (.file content) →
        (∀ p ∈ r.asked d.isFile d.isDirectory importer.path s,
          d.canonical p ≠ .ok (name :: dir)) →
        Disk.resolve? { d with tree := d.tree.remove (name :: dir) } r importer s =
          d.resolve? r importer s) := by
  refine ⟨fun isFile isDirectory => ⟨resolve?_eq_find? .., ?_, fun _ _ => Probe.file?_fixpoint,
    fun _ _ => resolve?_of_asked⟩, fun d dir name content => ⟨?_, ?_⟩⟩
  · rw [resolve?_eq_find?, Option.map_eq_none_iff, List.find?_eq_none]
    simp only [Bool.not_eq_true]
  · intro d' hFree hPut hAsked
    exact resolve?_differ (Disk.differAt_put hFree hPut) (Disk.here_put hPut)
      (fun _ _ hNone => (hNone rfl).elim) fun p hp _ => hAsked p hp
  · intro hFile hAsked
    exact resolve?_differ (Disk.differAt_remove hFile) rfl (fun p hp _ => hAsked p hp)
      fun _ _ hNone => (hNone rfl).elim

def shopTree : Option Files.FileTree := do
  let t ← Files.FileTree.empty.put? [] "src" .directory
  let t ← t.put? ["src"] "cart.tsx" (.file (.text ""))
  let t ← t.put? ["src"] "cart.js" .directory
  t.put? ["cart.js", "src"] "index.ts" (.file (.text ""))

def shop : Disk := ⟨shopTree.getD .empty, []⟩

/-- The same with a file whose path is tried after that of the source file. -/
def fullShop : Disk := (shop.put ["src"] "cart.js.ts" (.file (.text ""))).toOption.getD shop

theorem put_shop : shop.put ["src"] "cart.js.ts" (.file (.text "")) = .ok fullShop := by
  have hSome : (shop.put ["src"] "cart.js.ts" (.file (.text ""))).toOption.isSome = true := by
    decide +kernel
  rw [fullShop]
  cases hPut : shop.put ["src"] "cart.js.ts" (.file (.text "")) with
  | error fault =>
    rw [hPut] at hSome
    cases hSome
  | ok d => rfl

theorem cart_found_in_full_shop :
    shop.resolve? (ofRoot ⟨"/"⟩) (.ofText "/src/main.ts") "./cart.js" =
        some (.ofText "/src/cart.tsx") ∧
      fullShop.resolve? (ofRoot ⟨"/"⟩) (.ofText "/src/main.ts") "./cart.js" =
        some (.ofText "/src/cart.tsx") := by
  obtain ⟨hFirst, hDisk⟩ := resolves_to_first_file (ofRoot ⟨"/"⟩) (.ofText "/src/main.ts") "./cart.js"
  have hFound : shop.resolve? (ofRoot ⟨"/"⟩) (.ofText "/src/main.ts") "./cart.js" =
      some (.ofText "/src/cart.tsx") := by
    rw [Disk.resolve?, (hFirst _ _).1]
    decide +kernel
  refine ⟨hFound, ?_⟩
  rw [(hDisk shop ["src"] "cart.js.ts" (.text "")).1 fullShop (by decide +kernel) put_shop
    (by decide +kernel), hFound]

end Resolver

end ModuleAtlas
