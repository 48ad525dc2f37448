import ModuleAtlas.ProjectRoot
import ModuleAtlas.Proofs.Path.Cleaned
import ModuleAtlas.Proofs.Path.Place
import ModuleAtlas.Proofs.Text.Signs

/-!
# Names of places

The name of a path relative to a project root is the way from the root to the cleaned path: as many
steps up as the root has names that the path does not share, then the remaining names of the path,
as they are shown. Going that way from the root arrives at the path again if these names are text,
and only then; so the names of such paths tell places apart. The first piece of a name shows whether
the path lies below the root, and its pieces decide the location.
-/

namespace ModuleAtlas.ProjectRoot

open Component (Plain)
open Files (IsName Place)
open ModuleAtlas.Path (settle)

/-! ## The way from one place to another -/

/-- The components of a way that first goes up and then down. -/
def way (up : Nat) (down : List String) : List Component :=
  List.replicate up .up ++ down.map .name

/-- Two lists of names with what they share at the front, as far as they agree. -/
structure Splits (root place shared left down : List String) : Prop where
  root_eq : root = shared ++ left
  place_eq : place = shared ++ down
  apart : left <+: down → left = []

theorem climb_names (names : List String) :
    steps.climb (names.map .name) = List.replicate names.length ".." := by
  simp [steps.climb, List.filter_eq_self.mpr, List.eq_replicate_iff]

theorem descend_names (names : List String) :
    steps.descend (names.map .name) = names.map Text.lossy := by
  simp [steps.descend, List.filter_eq_self.mpr, Function.comp_def, Component.text]

/-- The components of a path that the root does not share. -/
def beyond : List Component → List Component → List Component
  | a :: root, b :: rest => if a = b then beyond root rest else b :: rest
  | _, rest => rest

theorem text_way (up : Nat) (down : List String) :
    (way up down).map Component.text = List.replicate up ".." ++ down := by
  simp [way, Function.comp_def, Component.text]

theorem exists_splits (root place : List String) :
    ∃ shared left down, Splits root place shared left down ∧
      beyond (root.map .name) (place.map .name) = down.map .name ∧
      steps (root.map .name) (place.map .name) =
        (way left.length (down.map Text.lossy)).map Component.text := by
  simp only [text_way]
  induction root generalizing place with
  | nil =>
    refine ⟨[], [], place, ⟨rfl, rfl, fun _ => rfl⟩, ?_, ?_⟩
    · rw [List.map_nil, beyond]
      simp
    · rw [List.map_nil, steps, descend_names]
      · rfl
      · simp
  | cons a root ih =>
    cases place with
    | nil =>
      refine ⟨[], a :: root, [], ⟨rfl, rfl, List.prefix_nil.mp⟩, ?_, ?_⟩
      · rw [List.map_nil, beyond]
        simp
      · rw [List.map_nil, steps, climb_names]
        · rfl
        · simp
    | cons b place =>
      by_cases hSame : a = b
      · subst hSame
        obtain ⟨shared, left, down, ⟨rfl, rfl, hApart⟩, hBeyond, hSteps⟩ := ih place
        refine ⟨a :: shared, left, down, ⟨rfl, rfl, hApart⟩, ?_, ?_⟩
        · rw [List.map_cons, List.map_cons, beyond, if_pos rfl, hBeyond]
        · rw [List.map_cons, List.map_cons, steps, if_pos rfl, hSteps]
      · have hDiffer : Component.name a ≠ .name b := by simpa using hSame
        refine ⟨[], a :: root, b :: place, ⟨rfl, rfl, ?_⟩, ?_, ?_⟩
        · intro hPrefix
          exact (hSame (List.cons_prefix_cons.mp hPrefix).1).elim
        · rw [List.map_cons, List.map_cons, beyond, if_neg hDiffer]
        · rw [List.map_cons, List.map_cons, steps, if_neg hDiffer, ← List.map_cons,
            ← List.map_cons, climb_names, descend_names]

theorem plain_way {up : Nat} {down : List String} (hDown : ∀ s ∈ down, IsName s) :
    ∀ part ∈ way up down, Plain part := by
  intro part hPart
  rcases List.mem_append.mp hPart with hUp | hName
  · rw [List.eq_of_mem_replicate hUp]
    exact .up
  · obtain ⟨s, hs, rfl⟩ := List.mem_map.mp hName
    exact (hDown s hs).plain

/-- Steps up to what is shared, and then down whatever names. -/
theorem foldl_settle_way {root : Place} {shared left : List String}
    (hRoot : root.reverse = shared ++ left) (names : List String) :
    (way left.length names).foldl settle root.stack =
      Place.stack (names.reverse ++ shared.reverse) := by
  have hRoot : root = left.reverse ++ shared.reverse := by
    rw [← List.reverse_append, ← hRoot, List.reverse_reverse]
  rw [way, List.foldl_append, Place.foldl_settle_up, hRoot, ← List.length_reverse,
    List.drop_left, Place.foldl_settle_names]

/-- A name that is shown is again a name. -/
theorem isName_lossy {s : String} (h : IsName s) : IsName (Text.lossy s) := by
  obtain ⟨hEmpty, hHere, hUp, hSlash⟩ := h
  refine ⟨?_, ?_, ?_, Text.slash_free_lossy hSlash⟩
  · rwa [ne_eq, Text.lossy_eq_iff (by decide) (by decide)]
  · rwa [ne_eq, Text.lossy_eq_iff (by decide) (by decide)]
  · rwa [ne_eq, Text.lossy_eq_iff (by decide) (by decide)]

/-! ## Places below the root -/

/-- The names of a path that the root does not share are text. -/
def Legible (r : ProjectRoot) (p : Path) : Prop :=
  ∀ part ∈ beyond r.path.components p.clean.components, Text.isText part.text = true

instance (r : ProjectRoot) (p : Path) : Decidable (r.Legible p) :=
  inferInstanceAs (Decidable (∀ part ∈ _, _))

section Below

variable {base names : Place} (hNames : ∀ s ∈ names ++ base, IsName s)

include hNames

end Below

/-! ## The text of a way -/

def spelling (parts : List Component) : String :=
  if parts = [] then "." else "/".intercalate (parts.map Component.text)

section Plain

variable {parts : List Component} (hParts : ∀ part ∈ parts, Plain part)

include hParts

theorem segments_spelling :
    (Path.mk (spelling parts)).segments =
      if parts = [] then ["."] else parts.map Component.text := by
  rw [spelling]
  split
  · decide
  · rename_i hSome
    apply Path.segments_intercalate
    · simpa using fun part hMem => (hParts part hMem).slash_free
    · simpa using hSome

theorem inner_spelling : (Path.mk (spelling parts)).inner = parts := by
  rw [Path.inner, segments_spelling hParts]
  split
  · rename_i hNone
    rw [hNone]
    decide
  · exact Path.filterMap_ofSegment hParts

theorem isAbsolute_spelling : (Path.mk (spelling parts)).isAbsolute = false := by
  rw [Bool.eq_false_iff]
  intro hAbsolute
  have hHead := Path.segments_absolute hAbsolute
  rw [segments_spelling hParts] at hHead
  split at hHead
  · exact absurd hHead (by decide)
  · obtain ⟨part, hPart, hText⟩ := List.mem_map.mp (List.mem_of_head? hHead)
    exact (hParts part hPart).text_ne_empty hText

end Plain

/-! ## A path seen from a root -/

/-- The way from a root to a path: up to a place that both share, then down these names. -/
structure Seen (root p : Path) (up : Nat) (shared : Place) (down : List String) : Prop where
  leads : ∀ names : List String, (way up names).foldl settle (root.components.foldl settle []) =
    Place.stack (names.reverse ++ shared)
  arrives : p.components.foldl settle [] = Place.stack (down.reverse ++ shared)
  names : ∀ s ∈ down.reverse ++ shared, IsName s
  below : up = 0 ↔ root.clean.components <+: p.clean.components
  parts : (ofPath root).relativeParts p = (way up (down.map Text.lossy)).map Component.text
  legible : (ofPath root).Legible p ↔ ∀ s ∈ down, Text.isText s = true

theorem exists_seen {root p : Path} (hRoot : root.isAbsolute = true) (hp : p.isAbsolute = true) :
    ∃ up shared down, Seen root p up shared down := by
  obtain ⟨base, hBase, hBaseStack⟩ := Place.exists_stack hRoot
  obtain ⟨place, hPlace, hStack⟩ := Place.exists_stack hp
  obtain ⟨shared, left, down, hSplits, hBeyond, hSteps⟩ := exists_splits base.reverse place.reverse
  have hPlaceEq : place = down.reverse ++ shared.reverse := by
    rw [← List.reverse_append, ← hSplits.place_eq, List.reverse_reverse]
  have hRootClean : root.clean.components = .root :: base.reverse.map Component.name := by
    rw [Place.clean_eq_path hBaseStack, Place.components_path hBase]
  have hClean : p.clean.components = .root :: place.reverse.map Component.name := by
    rw [Place.clean_eq_path hStack, Place.components_path hPlace]
  refine ⟨left.length, shared.reverse, down, ⟨?_, ?_, ?_, ?_, ?_, ?_⟩⟩
  · intro names
    rw [hBaseStack, foldl_settle_way hSplits.root_eq]
  · rw [hStack, hPlaceEq]
  · rwa [← hPlaceEq]
  · have hNames : Function.Injective Component.name := fun _ _ => Component.name.inj
    rw [hRootClean, hClean, List.cons_prefix_cons, List.prefix_map_iff_of_injective hNames,
      hSplits.root_eq, hSplits.place_eq, List.prefix_append_right_inj, List.length_eq_zero_iff]
    constructor
    · rintro rfl
      exact ⟨rfl, List.nil_prefix⟩
    · rintro ⟨-, hPrefix⟩
      exact hSplits.apart hPrefix
  · rw [relativeParts, ofPath, hRootClean, hClean, steps, if_pos rfl, hSteps]
  · rw [Legible, ofPath, hRootClean, hClean, beyond, if_pos rfl, hBeyond]
    simp [Component.text]

namespace Seen

variable {root p : Path} {up : Nat} {shared : Place} {down : List String}
  (h : Seen root p up shared down)

include h

theorem shown : ∀ s ∈ down.map Text.lossy, IsName s := by
  intro s hs
  obtain ⟨name, hName, rfl⟩ := List.mem_map.mp hs
  exact isName_lossy (h.names name (List.mem_append_left _ (List.mem_reverse.mpr hName)))

theorem plain : ∀ part ∈ way up (down.map Text.lossy), Plain part := plain_way h.shown

theorem normalize_eq : (ofPath root).normalize p = spelling (way up (down.map Text.lossy)) := by
  rw [normalize, h.parts, spelling]
  cases hWay : way up (down.map Text.lossy) with
  | nil => rfl
  | cons part parts => rfl

theorem clean_eq : p.clean = Place.path (down.reverse ++ shared) := Place.clean_eq_path h.arrives

theorem clean_join_eq (hText : root.text ≠ "") :
    (root.join ⟨(ofPath root).normalize p⟩).clean =
      Place.path ((down.map Text.lossy).reverse ++ shared) := by
  rw [h.normalize_eq]
  apply Place.clean_eq_path
  rw [Path.components_join_relative hText (isAbsolute_spelling h.plain), inner_spelling h.plain,
    List.foldl_append, h.leads]

/-- The way leads back exactly if it can be read. -/
theorem clean_join_iff (hText : root.text ≠ "") :
    (root.join ⟨(ofPath root).normalize p⟩).clean = p.clean ↔ (ofPath root).Legible p := by
  have hNames : ∀ s ∈ (down.map Text.lossy).reverse ++ shared, IsName s := by
    intro s hs
    rcases List.mem_append.mp hs with hDown | hShared
    · exact h.shown s (List.mem_reverse.mp hDown)
    · exact h.names s (List.mem_append_right _ hShared)
  rw [h.clean_join_eq hText, h.clean_eq, h.legible, ← Text.map_lossy_eq_self_iff]
  constructor
  · intro hSame
    have hPlaces := Place.path_injective hNames h.names hSame
    rwa [List.append_cancel_right_eq, List.reverse_inj] at hPlaces
  · intro hSame
    rw [hSame]

theorem segments_normalize :
    (Path.mk ((ofPath root).normalize p)).segments =
      if way up (down.map Text.lossy) = [] then ["."]
      else List.replicate up ".." ++ down.map Text.lossy := by
  rw [h.normalize_eq, segments_spelling h.plain, text_way]

theorem head_segments :
    (Path.mk ((ofPath root).normalize p)).segments.head? = some ".." ↔ up ≠ 0 := by
  rw [h.segments_normalize]
  cases up with
  | succ up => simp [way, List.replicate_succ]
  | zero =>
    cases down with
    | nil => simp [way]
    | cons s down =>
      obtain ⟨-, -, hUp, -⟩ := h.shown (Text.lossy s) (.head _)
      simp [way, hUp]

theorem locate_eq : (ofPath root).locate p =
    if vendorMarker ∈ (Path.mk ((ofPath root).normalize p)).segments then .external
    else if (Path.mk ((ofPath root).normalize p)).segments.head? = some ".." then .outsideRoot
    else .internal := by
  have hMarker : vendorMarker ≠ "." := by decide
  rw [locate, h.parts, text_way, h.segments_normalize]
  by_cases hNone : way up (down.map Text.lossy) = []
  · have hParts := text_way up (down.map Text.lossy)
    rw [hNone, List.map_nil] at hParts
    simp [hNone, hMarker, ← hParts]
  · simp only [if_neg hNone, List.contains_eq_mem, decide_eq_true_eq]

theorem normalize_below (hBelow : up = 0) :
    (ofPath root).normalize p = "." ∨
      ∃ names, names ≠ [] ∧ (∀ s ∈ names, IsName s) ∧
        (ofPath root).normalize p = "/".intercalate names := by
  subst hBelow
  rw [h.normalize_eq, spelling]
  split
  · exact .inl rfl
  · rename_i hSome
    refine .inr ⟨down.map Text.lossy, ?_, h.shown, ?_⟩
    · intro hNone
      rw [hNone] at hSome
      exact hSome rfl
    · rw [text_way, List.replicate_zero, List.nil_append]

theorem up_eq_zero (hInternal : (ofPath root).locate p = .internal) : up = 0 := by
  by_contra hUp
  rw [h.locate_eq, if_pos (h.head_segments.mpr hUp)] at hInternal
  split at hInternal
  · cases hInternal
  · cases hInternal

end Seen

/-- Going from the root along the name of a path arrives at the cleaned path exactly if the names
of the path are text. -/
theorem clean_join_normalize_iff {root p : Path} (hRoot : root.isAbsolute = true)
    (hp : p.isAbsolute = true) :
    (root.join ⟨(ofPath root).normalize p⟩).clean = p.clean ↔ (ofPath root).Legible p :=
  let ⟨_, _, _, hSeen⟩ := exists_seen hRoot hp
  hSeen.clean_join_iff (Path.text_ne_empty hRoot)

theorem ofPath_clean (root : Path) : ofPath root.clean = ofPath root := by
  rw [ofPath, ofPath, Path.clean_clean]

theorem clean_join_root_iff {root p : Path} (hRoot : root.isAbsolute = true)
    (hp : p.isAbsolute = true) :
    (root.clean.join ⟨(ofPath root).normalize p⟩).clean = p.clean ↔ (ofPath root).Legible p := by
  rw [← ofPath_clean]
  exact clean_join_normalize_iff (Path.isAbsolute_clean hRoot) hp

theorem normalize_congr {root p q : Path} (h : p.clean = q.clean) :
    (ofPath root).normalize p = (ofPath root).normalize q := by
  rw [normalize, normalize, relativeParts, relativeParts, h]

/-- Names are reversible as far as they are text: from the root they lead back to the cleaned path,
so two such paths share a name exactly if they are one place. The first piece of a name is a step up
exactly if the path does not lie below the root, the location is read off the pieces, and inside the
project a name is made of file names alone, whatever the bytes of the path. -/
theorem normalize_names_places (root : Path) (hRoot : root.isAbsolute = true) :
    (∀ p q : Path, p.isAbsolute = true → q.isAbsolute = true →
      (p.clean = q.clean → (ofPath root).normalize p = (ofPath root).normalize q) ∧
      ((ofPath root).Legible p → (ofPath root).Legible q →
        (ofPath root).normalize p = (ofPath root).normalize q → p.clean = q.clean)) ∧
    ∀ p : Path, p.isAbsolute = true →
      ((root.join ⟨(ofPath root).normalize p⟩).clean = p.clean ↔ (ofPath root).Legible p) ∧
      (((ofPath root).path.join ⟨(ofPath root).normalize p⟩).clean = p.clean ↔
        (ofPath root).Legible p) ∧
      ((Path.mk ((ofPath root).normalize p)).segments.head? = some ".." ↔
        ¬ (ofPath root).path.components <+: p.clean.components) ∧
      (ofPath root).locate p =
        (if vendorMarker ∈ (Path.mk ((ofPath root).normalize p)).segments then .external
          else if (Path.mk ((ofPath root).normalize p)).segments.head? = some ".." then .outsideRoot
          else .internal) ∧
      ((ofPath root).locate p = .internal → (ofPath root).normalize p = "." ∨
        ∃ names, names ≠ [] ∧ (∀ s ∈ names, IsName s) ∧
          (ofPath root).normalize p = "/".intercalate names) := by
  constructor
  · intro p q hp hq
    refine ⟨normalize_congr, fun hLegible hLegible' hSame => ?_⟩
    rw [← (clean_join_normalize_iff hRoot hp).mpr hLegible, hSame,
      (clean_join_normalize_iff hRoot hq).mpr hLegible']
  · intro p hp
    obtain ⟨up, shared, down, hSeen⟩ := exists_seen hRoot hp
    refine ⟨clean_join_normalize_iff hRoot hp, clean_join_root_iff hRoot hp, ?_, hSeen.locate_eq, ?_⟩
    · rw [hSeen.head_segments, ne_eq, hSeen.below]
      rfl
    · exact fun hInternal => hSeen.normalize_below (hSeen.up_eq_zero hInternal)

/-- Neither a longer name with the same beginning nor a step through the root confuses the way. -/
theorem sibling_leads_back :
    ((Path.mk "/proj//web/.").join ⟨"../../project/a.ts"⟩).clean = ⟨"/project/a.ts"⟩ ∧
      (ofPath ⟨"/proj//web/."⟩).locate ⟨"/proj/./web/../../../project//a.ts"⟩ = .outsideRoot := by
  obtain ⟨-, hPlaces⟩ := normalize_names_places ⟨"/proj//web/."⟩ (by decide)
  obtain ⟨hBack, -, -, hLocate, -⟩ :=
    hPlaces ⟨"/proj/./web/../../../project//a.ts"⟩ (by decide)
  have hName : (ofPath ⟨"/proj//web/."⟩).normalize ⟨"/proj/./web/../../../project//a.ts"⟩ =
      "../../project/a.ts" := by decide +kernel
  have hClean : (Path.mk "/proj/./web/../../../project//a.ts").clean = ⟨"/project/a.ts"⟩ := by
    decide +kernel
  have hLegible : (ofPath ⟨"/proj//web/."⟩).Legible ⟨"/proj/./web/../../../project//a.ts"⟩ := by
    decide +kernel
  have hArrives := hBack.mpr hLegible
  rw [hName] at hArrives hLocate
  rw [hClean] at hArrives
  exact ⟨hArrives, hLocate.trans (by decide +kernel)⟩

/-- Two names that are not text are shown alike. -/
theorem strays_are_shown_alike :
    (Path.mk "/proj/\x00\u00FF.ts").isAbsolute = true ∧
      (Path.mk "/proj/\x00\u00FE.ts").isAbsolute = true ∧
      (ofPath ⟨"/proj"⟩).normalize ⟨"/proj/\x00\u00FF.ts"⟩ =
        (ofPath ⟨"/proj"⟩).normalize ⟨"/proj/\x00\u00FE.ts"⟩ ∧
      (Path.mk "/proj/\x00\u00FF.ts").clean ≠ (Path.mk "/proj/\x00\u00FE.ts").clean ∧
      ((Path.mk "/proj").join ⟨(ofPath ⟨"/proj"⟩).normalize ⟨"/proj/\x00\u00FF.ts"⟩⟩).clean ≠
        (Path.mk "/proj/\x00\u00FF.ts").clean := by
  decide +kernel

end ModuleAtlas.ProjectRoot
