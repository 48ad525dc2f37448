import ModuleAtlas.Proofs.Path.Cleaned
import ModuleAtlas.Proofs.Path.Place
import ModuleAtlas.Proofs.Resolver.Registration

/-!
# Where path mappings start

A target of a path mapping is put behind the base as text and then seen from the root, while bare
specifiers are seen from the base as a directory. Both ways end in one place for every base but the
empty one, which turns the targets into absolute paths.
-/

namespace ModuleAtlas

namespace Path

open Files (Place)

theorem clean_congr {p q : Path} (h : p.components.foldl settle [] = q.components.foldl settle []) :
    p.clean = q.clean := by
  rw [clean, cleanComponents, h, clean, cleanComponents]

theorem isAbsolute_join {p : Path} (h : p.isAbsolute = true) (q : Path) :
    (p.join q).isAbsolute = true := by
  have hText : p.text.toList ≠ [] := by simpa using text_ne_empty h
  rw [join]
  split
  · rename_i hAlone
    rw [Bool.or_eq_true, decide_eq_true_eq, or_iff_left (text_ne_empty h)] at hAlone
    exact hAlone
  · split
    · rwa [isAbsolute, String.toList_append, List.head?_append_of_ne_nil _ hText]
    · rwa [isAbsolute, String.toList_append, String.toList_append, List.append_assoc,
        List.head?_append_of_ne_nil _ hText]

theorem inner_append_slash (s t : String) :
    (Path.mk (s ++ "/" ++ t)).inner = (Path.mk s).inner ++ (Path.mk t).inner := by
  rw [inner, segments_append_slash, List.filterMap_append]
  rfl

/-- What stands behind a directory is read from the place that the directory names. -/
theorem clean_append_slash {p : Path} (h : p.isAbsolute = true) (t : String) {q : Path}
    (hq : q.components = p.components ++ (Path.mk t).inner) :
    q.clean = (Path.mk (p.clean.text ++ "/" ++ t)).clean := by
  obtain ⟨place, hNames, hStack⟩ := Place.exists_stack h
  have hText := text_ne_empty (isAbsolute_clean h)
  apply clean_congr
  rw [hq, components_append_slash, if_neg hText, List.foldl_append, List.foldl_append, hStack,
    Place.clean_eq_path hStack, Place.foldl_settle_path hNames]

end Path

namespace TsConfig

/-! ## The base without its end -/

theorem exists_endSlashes (s : String) :
    ∃ n, s = withoutEndSlashes s ++ String.ofList (List.replicate n '/') := by
  have hSplit := List.takeWhile_append_dropWhile (p := (· == '/')) (l := s.toList.reverse)
  refine ⟨(s.toList.reverse.takeWhile (· == '/')).length, ?_⟩
  have hSlashes : s.toList.reverse.takeWhile (· == '/') =
      List.replicate (s.toList.reverse.takeWhile (· == '/')).length '/' := by
    apply List.eq_replicate_of_mem
    intro c hc
    simpa using List.all_eq_true.mp List.all_takeWhile c hc
  rw [← String.toList_inj, withoutEndSlashes, String.toList_append, String.toList_ofList,
    String.toList_ofList, ← List.reverse_replicate, ← hSlashes, ← List.reverse_append, hSplit,
    List.reverse_reverse]

theorem inner_slashes (s : String) (n : Nat) :
    (Path.mk (s ++ String.ofList (List.replicate n '/'))).inner = (Path.mk s).inner := by
  induction n with
  | zero => simp
  | succ n ih =>
    have hText : s ++ String.ofList (List.replicate (n + 1) '/') =
        s ++ String.ofList (List.replicate n '/') ++ "/" ++ "" := by
      rw [← String.toList_inj]
      simp [List.replicate_succ']
    have hNone : (Path.mk "").inner = [] := by decide
    rw [hText, Path.inner_append_slash, ih, hNone, List.append_nil]

theorem inner_withoutEndSlashes (s : String) :
    (Path.mk (withoutEndSlashes s)).inner = (Path.mk s).inner := by
  obtain ⟨n, hText⟩ := exists_endSlashes s
  conv_rhs => rw [hText]
  rw [inner_slashes]

theorem isAbsolute_withoutEndSlashes_slash {s : String} (h : s ≠ "") (t : String) :
    (Path.mk (withoutEndSlashes s ++ "/" ++ t)).isAbsolute = (Path.mk s).isAbsolute := by
  obtain ⟨n, hText⟩ := exists_endSlashes s
  by_cases hNone : withoutEndSlashes s = ""
  · cases n with
    | zero =>
      rw [hNone] at hText
      simp [h] at hText
    | succ n =>
      rw [hNone] at hText ⊢
      rw [hText]
      simp [Path.isAbsolute, List.replicate_succ]
  · have hSome : (withoutEndSlashes s).toList ≠ [] := by simpa using hNone
    conv_rhs => rw [hText]
    rw [Path.isAbsolute, Path.isAbsolute, String.toList_append, String.toList_append,
      String.toList_append, List.append_assoc, List.head?_append_of_ne_nil _ hSome,
      List.head?_append_of_ne_nil _ hSome]

/-- A text behind a base, both seen from a root, names the place seen from the base as a directory,
unless the base is empty. -/
theorem clean_join_base {root : Path} (hRoot : root.isAbsolute = true) {url : String}
    (hUrl : url ≠ "") (t : String) :
    (root.join ⟨withoutEndSlashes url ++ "/" ++ t⟩).clean =
      (Path.mk ((root.join ⟨url⟩).clean.text ++ "/" ++ t)).clean := by
  have hInner : (Path.mk (withoutEndSlashes url ++ "/" ++ t)).inner =
      (Path.mk url).inner ++ (Path.mk t).inner := by
    rw [Path.inner_append_slash, inner_withoutEndSlashes]
  have hSame := isAbsolute_withoutEndSlashes_slash hUrl t
  cases hAbsolute : (Path.mk url).isAbsolute with
  | true =>
    -- An absolute base hides the root on both ways.
    rw [hAbsolute] at hSame
    have hJoin : root.join ⟨url⟩ = ⟨url⟩ := by rw [Path.join, hAbsolute, Bool.true_or, if_pos rfl]
    rw [hJoin]
    apply Path.clean_append_slash hAbsolute
    rw [Path.join, hSame, Bool.true_or, if_pos rfl, Path.components_eq, if_pos hSame, hInner,
      Path.components_eq, if_pos hAbsolute, List.cons_append]
  | false =>
    rw [hAbsolute] at hSame
    have hText := Path.text_ne_empty hRoot
    have hComponents := Path.components_join_relative hText hAbsolute
    apply Path.clean_append_slash (Path.isAbsolute_join hRoot _)
    rw [Path.components_join_relative hText hSame, hInner, hComponents, List.append_assoc]

/-! ## The rewritings of a path mapping -/

variable {t : TsConfig} {front target replacement : String} {more : List String}

theorem alias?_eq_some_iff {base pattern : String} {targets : List String} :
    alias? base pattern targets = some (front, replacement) ↔
      ∃ target more, pattern = front ++ "*" ∧ targets = (target ++ "*") :: more ∧
        replacement = base ++ "/" ++ target := by
  rw [alias?]
  constructor
  · intro h
    split at h
    · rename_i front target hFront hTarget
      cases h
      obtain ⟨first, hFirst, hTarget⟩ := Option.bind_eq_some_iff.mp hTarget
      obtain ⟨more, hTargets⟩ := List.head?_eq_some_iff.mp hFirst
      rw [Text.before?_eq_some_iff] at hFront hTarget
      exact ⟨target, more, hFront, by rw [hTargets, hTarget], rfl⟩
    · cases h
  · rintro ⟨target, more, rfl, rfl, rfl⟩
    have hFront : Text.before? "*" (front ++ "*") = some front := Text.before?_eq_some_iff.mpr rfl
    have hTarget : Text.before? "*" (target ++ "*") = some target :=
      Text.before?_eq_some_iff.mpr rfl
    rw [List.head?_cons, Option.bind_some, hFront, hTarget]

theorem get?_aliases_iff :
    t.aliases.get? front = some replacement ↔
      ∃ target more, (front ++ "*", (target ++ "*") :: more) ∈ t.paths.entries ∧
        replacement = t.base ++ "/" ++ target := by
  have hDistinct : ((t.paths.entries.filterMap fun e => alias? t.base e.1 e.2).map
      Prod.fst).Nodup := by
    rw [List.Nodup, List.pairwise_map, List.pairwise_filterMap]
    apply (List.pairwise_map.mp t.paths.nodup_keys).imp
    rintro ⟨pattern, targets⟩ ⟨pattern', targets'⟩ hPatterns ⟨a, b⟩ h ⟨a', b'⟩ h' hSame
    obtain ⟨-, -, rfl, -⟩ := alias?_eq_some_iff.mp h
    obtain ⟨-, -, rfl, -⟩ := alias?_eq_some_iff.mp h'
    exact hPatterns (congrArg (· ++ "*") hSame)
  rw [aliases, Dictionary.get?_ofList_iff hDistinct, List.mem_filterMap]
  constructor
  · rintro ⟨⟨pattern, targets⟩, hMem, hAlias⟩
    obtain ⟨target, more, rfl, rfl, rfl⟩ := alias?_eq_some_iff.mp hAlias
    exact ⟨target, more, hMem, rfl⟩
  · rintro ⟨target, more, hMem, rfl⟩
    exact ⟨_, hMem, alias?_eq_some_iff.mpr ⟨target, more, rfl, rfl, rfl⟩⟩

/-- The directory that bare specifiers without a rewriting are seen from. -/
def directory (t : TsConfig) (root : Path) : Path :=
  match t.baseUrl? with
  | some url => (root.clean.join ⟨url⟩).clean
  | none => root.clean

theorem clean_join_target {root : Path} (hRoot : root.isAbsolute = true)
    (hBase : t.baseUrl? ≠ some "") (text : String) :
    (root.clean.join ⟨t.base ++ "/" ++ text⟩).clean =
      (Path.mk ((t.directory root).text ++ "/" ++ text)).clean := by
  have hClean := Path.isAbsolute_clean hRoot
  rw [base, directory]
  cases hUrl : t.baseUrl? with
  | some url =>
    rw [hUrl] at hBase
    apply clean_join_base hClean
    rintro rfl
    exact hBase rfl
  | none =>
    have hHere : (root.clean.join ⟨"."⟩).clean = root.clean := by
      have hNone : (Path.mk ".").inner = [] := by decide
      conv_rhs => rw [← Path.clean_clean]
      apply Path.clean_congr
      rw [Path.components_join_relative (Path.text_ne_empty hClean) rfl,
        hNone, List.append_nil]
    rw [Option.getD_none, clean_join_base hClean (by decide), hHere]

theorem candidates_of_entry (root importer : Path) {ref : Reference} {rest : String}
    (hPath : ref.isPath = false) (hSpecifier : ref.specifier = front ++ rest)
    (hEntry : (front ++ "*", (target ++ "*") :: more) ∈ t.paths.entries)
    (hLongest : ∀ front' target' more', (front' ++ "*", (target' ++ "*") :: more') ∈ t.paths.entries →
      Text.startsWith ref.specifier front' = true → front'.length ≤ front.length) :
    (Resolver.ofSettings root (some t) .empty).candidates importer ref.specifier =
      [(root.clean.join ⟨t.base ++ "/" ++ target ++ rest⟩).clean] := by
  have hTable : ∀ front replacement,
      ⟨front, replacement⟩ ∈ Resolver.projectTable (some t) .empty ↔
        t.aliases.get? front = some replacement := by
    intro front replacement
    rw [Resolver.mem_projectTable_iff, Dictionary.get?_empty]
    simp
  have hMem : ⟨front, t.base ++ "/" ++ target⟩ ∈ Resolver.projectTable (some t) .empty :=
    (hTable _ _).mpr (get?_aliases_iff.mpr ⟨target, more, hEntry, rfl⟩)
  have hChosen : Chosen (Resolver.registered (Resolver.projectCalls (some t) .empty)) ref.specifier
      ⟨front, t.base ++ "/" ++ target⟩ := by
    rw [Resolver.registered_projectCalls]
    apply Chosen.of_distinct (Resolver.nodup_projectTable _ _) hMem
    · exact Text.startsWith_iff.mpr ⟨rest, hSpecifier⟩
    · rintro ⟨front', replacement'⟩ hMem' hBegins
      obtain ⟨target', more', hEntry', -⟩ := get?_aliases_iff.mp ((hTable _ _).mp hMem')
      exact hLongest front' target' more' hEntry' hBegins
  have hCandidates := Resolver.candidates_of_chosen importer root hPath hChosen hSpecifier
  rwa [← Resolver.ofSettings_eq] at hCandidates

/-- A rewriting of the path mapping leads to the directory of bare specifiers exactly if the base is
not empty, or if the empty base makes no difference. An empty base leads to the root of all files. -/
theorem alias_starts_at_base_iff (root : Path) (hRoot : root.isAbsolute = true) (t : TsConfig)
    (importer : Path) (ref : Reference) (front target rest : String) (more : List String)
    (hPath : ref.isPath = false) (hSpecifier : ref.specifier = front ++ rest)
    (hEntry : (front ++ "*", (target ++ "*") :: more) ∈ t.paths.entries)
    (hLongest : ∀ front' target' more', (front' ++ "*", (target' ++ "*") :: more') ∈ t.paths.entries →
      Text.startsWith ref.specifier front' = true → front'.length ≤ front.length) :
    let r := Resolver.ofSettings root (some t) .empty
    let expected := (Path.mk ((t.directory root).text ++ "/" ++ (target ++ rest))).clean
    r.base?.getD r.root = t.directory root ∧
      (r.candidates importer ref.specifier = [expected] ↔
        (t.baseUrl? = some "" → (Path.mk ("/" ++ (target ++ rest))).clean = expected)) ∧
      (t.baseUrl? = some "" →
        r.candidates importer ref.specifier = [(Path.mk ("/" ++ (target ++ rest))).clean]) := by
  intro r expected
  have hCandidates := candidates_of_entry root importer hPath hSpecifier hEntry hLongest
  rw [String.append_assoc] at hCandidates
  have hEmpty : t.baseUrl? = some "" →
      r.candidates importer ref.specifier = [(Path.mk ("/" ++ (target ++ rest))).clean] := by
    intro hUrl
    have hBase : t.base = "" := by
      rw [base, hUrl]
      decide +kernel
    have hAbsolute : (Path.mk ("/" ++ (target ++ rest))).isAbsolute = true := by
      simp [Path.isAbsolute]
    rw [hCandidates, hBase, String.empty_append, Path.join, hAbsolute, Bool.true_or, if_pos rfl]
  refine ⟨?_, ?_, hEmpty⟩
  · have hBases : r.base? = (t.baseUrl?.map Path.mk).map fun base => (root.clean.join base).clean := by
      rw [← Option.bind_some (f := TsConfig.baseUrl?), ← Resolver.lastBase?_projectCalls _ .empty,
        ← Resolver.base?_ofCalls, ← Resolver.ofSettings_eq]
    rw [hBases, Resolver.root_ofSettings, directory]
    cases t.baseUrl? with
    | none => rfl
    | some url => rfl
  · by_cases hUrl : t.baseUrl? = some ""
    · rw [hEmpty hUrl]
      simp [hUrl]
    · rw [hCandidates, clean_join_target hRoot hUrl]
      simp [hUrl, expected]

theorem length_le_of_patterns (h : ∀ e ∈ t.paths.entries, e.1.length ≤ (front ++ "*").length)
    (front' target' : String) (more' : List String)
    (hEntry : (front' ++ "*", (target' ++ "*") :: more') ∈ t.paths.entries) :
    front'.length ≤ front.length := by
  have hLength := h _ hEntry
  rw [String.length_append, String.length_append] at hLength
  omega

/-- A base with a slash at its end, and two wildcards for one specifier. -/
def sourceMapping : TsConfig where
  baseUrl? := some "src/"
  paths := .ofList [("#*", ["any/*"]), ("#lib/*", ["lib/*", "old/*"])]

theorem source_mapping_starts_at_base :
    (Resolver.ofSettings ⟨"/proj"⟩ (some sourceMapping) .empty).candidates ⟨"/proj/src/main.ts"⟩
      "#lib/../date" = [⟨"/proj/src/date"⟩] := by
  have hPatterns : ∀ e ∈ sourceMapping.paths.entries, e.1.length ≤ ("#lib/" ++ "*").length := by
    decide +kernel
  obtain ⟨-, hStarts, -⟩ := alias_starts_at_base_iff ⟨"/proj"⟩ (by decide +kernel) sourceMapping
    ⟨"/proj/src/main.ts"⟩ ⟨"#lib/../date", .static, false⟩ "#lib/" "lib/" "../date" ["old/*"]
    (by decide +kernel) (by decide +kernel) (by decide +kernel) fun front' target' more' hEntry _ =>
      length_le_of_patterns hPatterns front' target' more' hEntry
  have hPlace : (Path.mk ((sourceMapping.directory ⟨"/proj"⟩).text ++ "/" ++
      ("lib/" ++ "../date"))).clean = ⟨"/proj/src/date"⟩ := by decide +kernel
  rw [← hPlace]
  exact hStarts.mpr nofun

/-- A path mapping with an empty base. -/
def emptyBaseMapping : TsConfig where
  baseUrl? := some ""
  paths := .ofList [("@/*", ["src/*"])]

theorem empty_base_leaves_root :
    ("@/" ++ "*", ["src/" ++ "*"]) ∈ emptyBaseMapping.paths.entries ∧
      emptyBaseMapping.directory ⟨"/proj"⟩ = ⟨"/proj"⟩ ∧
      (Path.mk ("/proj" ++ "/" ++ ("src/" ++ "a"))).clean = ⟨"/proj/src/a"⟩ ∧
      (Resolver.ofSettings ⟨"/proj"⟩ (some emptyBaseMapping) .empty).candidates ⟨"/proj/main.ts"⟩
        "@/a" ≠ [⟨"/proj/src/a"⟩] := by
  have hPatterns : ∀ e ∈ emptyBaseMapping.paths.entries, e.1.length ≤ ("@/" ++ "*").length := by
    decide +kernel
  have hEntry : ("@/" ++ "*", ["src/" ++ "*"]) ∈ emptyBaseMapping.paths.entries := by
    decide +kernel
  have hPath : (Reference.mk "@/a" .static false).isPath = false := by decide +kernel
  have hSpecifier : (Reference.mk "@/a" .static false).specifier = "@/" ++ "a" := by decide +kernel
  have hCandidates := candidates_of_entry ⟨"/proj"⟩ ⟨"/proj/main.ts"⟩ hPath hSpecifier hEntry
    fun front' target' more' hEntry _ => length_le_of_patterns hPatterns front' target' more' hEntry
  refine ⟨hEntry, by decide +kernel, by decide +kernel, ?_⟩
  rw [hCandidates]
  decide +kernel

end TsConfig

end ModuleAtlas
