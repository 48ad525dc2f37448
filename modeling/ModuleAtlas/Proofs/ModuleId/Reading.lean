import ModuleAtlas.Proofs.ProjectRoot

/-!
# Where paths lead

Read piece by piece, a path leads from the root or from an unknown start: a name goes down, a step
up takes back the last name, and where there is none it stays at the root or counts as one level
above the start. Cleaned paths are the shortest texts of such readings, one text for each, and what
is joined to a path is read on from where the path leads.
-/

namespace ModuleAtlas.Path

open Component (Plain)
open Files (IsName Place)
open ProjectRoot (spelling way)

/-- Names below the root, or names below so many levels up; the last name stands first. -/
inductive Reading where
  | absolute (names : Place)
  | relative (ups : Nat) (names : Place)
deriving DecidableEq

namespace Reading

def up : Reading → Reading
  | absolute names => absolute names.tail
  | relative ups [] => relative (ups + 1) []
  | relative ups (_ :: names) => relative ups names

def down (name : String) : Reading → Reading
  | absolute names => absolute (name :: names)
  | relative ups names => relative ups (name :: names)

def step (r : Reading) (piece : String) : Reading :=
  if piece = "" ∨ piece = "." then r else if piece = ".." then r.up else r.down piece

def names : Reading → Place
  | absolute names => names
  | relative _ names => names

/-- The shortest text that is read so. -/
def path : Reading → Path
  | absolute names => names.path
  | relative ups names => ⟨spelling (way ups names.reverse)⟩

end Reading

/-- Where a path leads, by its pieces from left to right. -/
def reading (p : Path) : Reading :=
  p.segments.foldl Reading.step (if p.isAbsolute then .absolute [] else .relative 0 [])

namespace Reading

/-! ## Names -/

def Named (r : Reading) : Prop := ∀ s ∈ r.names, IsName s

theorem Named.up {r : Reading} (h : r.Named) : r.up.Named := by
  cases r with
  | absolute names => exact fun s hs => h s (List.mem_of_mem_tail hs)
  | relative ups names =>
    cases names with
    | nil => exact h
    | cons name names => exact fun s hs => h s (.tail _ hs)

theorem Named.down {r : Reading} (h : r.Named) {name : String} (hName : IsName name) :
    (r.down name).Named := by
  cases r with
  | absolute names => exact List.forall_mem_cons.mpr ⟨hName, h⟩
  | relative ups names => exact List.forall_mem_cons.mpr ⟨hName, h⟩

theorem Named.step {r : Reading} (h : r.Named) {piece : String} (hFree : '/' ∉ piece.toList) :
    (r.step piece).Named := by
  rw [Reading.step]
  split
  · exact h
  · rename_i hNoise
    obtain ⟨hEmpty, hHere⟩ := not_or.mp hNoise
    split
    · exact h.up
    · rename_i hUp
      exact h.down ⟨hEmpty, hHere, hUp, hFree⟩

theorem Named.foldl {r : Reading} (h : r.Named) {pieces : List String}
    (hFree : ∀ piece ∈ pieces, '/' ∉ piece.toList) : (pieces.foldl Reading.step r).Named := by
  induction pieces generalizing r with
  | nil => exact h
  | cons piece pieces ih =>
    exact ih (h.step (hFree piece (.head _))) fun piece hMem => hFree piece (.tail _ hMem)

/-! ## Readings and components -/

/-- The components of the shortest text, the last one first. -/
def stack : Reading → List Component
  | absolute names => names.stack
  | relative ups names => names.map .name ++ List.replicate ups .up

theorem settle_stack_up (r : Reading) : settle r.stack .up = r.up.stack := by
  cases r with
  | absolute names => exact Place.settle_stack_up names
  | relative ups names =>
    cases names with
    | nil => cases ups <;> rfl
    | cons name names => rfl

theorem settle_stack_name (r : Reading) (name : String) :
    settle r.stack (.name name) = (r.down name).stack := by
  cases r <;> rfl

theorem foldl_settle_stack (r : Reading) (pieces : List String) :
    (pieces.filterMap ofSegment?).foldl settle r.stack = (pieces.foldl step r).stack := by
  induction pieces generalizing r with
  | nil => rfl
  | cons piece pieces ih =>
    rw [List.foldl_cons, ← ih, step, List.filterMap_cons, ofSegment?]
    by_cases hNoise : piece = "" ∨ piece = "."
    · rw [if_pos hNoise, if_pos hNoise]
    · rw [if_neg hNoise, if_neg hNoise]
      by_cases hUp : piece = ".."
      · rw [if_pos hUp, if_pos hUp, ← settle_stack_up]
        rfl
      · rw [if_neg hUp, if_neg hUp, ← settle_stack_name]
        rfl

theorem root_mem_stack_iff {r : Reading} : .root ∈ r.stack ↔ ∃ names, r = absolute names := by
  cases r <;> simp [stack, Place.stack]

theorem stack_injective : Function.Injective stack := by
  have hNames : Function.Injective Component.name := fun _ _ => Component.name.inj
  intro r r' h
  cases r with
  | absolute names =>
    have hRoot : .root ∈ r'.stack := by
      rw [← h]
      exact root_mem_stack_iff.mpr ⟨names, rfl⟩
    obtain ⟨names', rfl⟩ := root_mem_stack_iff.mp hRoot
    have hMap : names.map Component.name = names'.map .name := List.append_cancel_right h
    rw [hNames.list_map hMap]
  | relative ups names =>
    cases r' with
    | absolute names' =>
      have hRoot : .root ∈ (relative ups names).stack := by
        rw [h]
        exact root_mem_stack_iff.mpr ⟨names', rfl⟩
      obtain ⟨_, ⟨⟩⟩ := root_mem_stack_iff.mp hRoot
    | relative ups' names' =>
      -- Names stand in front of the steps up, so both lists are cut at the first step up.
      have hStop : ∀ n, ∀ part ∈ (List.replicate n Component.up).head?, ¬ (part != .up) = true := by
        intro n part hPart
        rw [List.eq_of_mem_replicate (List.mem_of_head? hPart)]
        decide
      obtain ⟨hMap, hUps⟩ :=
        Text.append_inj_of_all (· != .up) (by simp) (by simp) (hStop ups) (hStop ups') h
      rw [hNames.list_map hMap, (List.replicate_inj.mp hUps).1]

end Reading

/-! ## Cleaning and joining -/

/-- While components are cleaned, the stack holds where the pieces read so far lead. -/
theorem foldl_settle_eq_stack (p : Path) : p.components.foldl settle [] = p.reading.stack := by
  rw [reading, ← Reading.foldl_settle_stack, components_eq]
  split
  · rfl
  · split
    · rfl
    · rfl

theorem foldl_settle_clean (p : Path) :
    p.clean.components.foldl settle [] = p.components.foldl settle [] := by
  obtain ⟨hHere, hSteps⟩ := cleanComponents_keeps p.components
  have hStack : (cleanComponents p.components).reverse = p.components.foldl settle [] :=
    List.reverse_reverse _
  have hKept := foldl_settle_of_stepsFirst hHere hSteps
  rw [components_clean, ← hStack]
  split
  · rename_i hNone
    rw [hNone]
    rfl
  · exact hKept

theorem reading_clean (p : Path) : p.clean.reading = p.reading := by
  apply Reading.stack_injective
  rw [← foldl_settle_eq_stack, ← foldl_settle_eq_stack, foldl_settle_clean]

theorem ofComponents_way (ups : Nat) (names : List String) :
    ofComponents (way ups names) = ⟨"/".intercalate ((way ups names).map Component.text)⟩ := by
  cases ups with
  | zero => cases names <;> rfl
  | succ ups => rfl

/-- A cleaned path is the shortest text of where the path leads. -/
theorem clean_eq_path (p : Path) : p.clean = p.reading.path := by
  have hStack := foldl_settle_eq_stack p
  cases hReading : p.reading with
  | absolute names =>
    rw [hReading] at hStack
    exact Place.clean_eq_path hStack
  | relative ups names =>
    have hWay : cleanComponents p.components = way ups names.reverse := by
      rw [cleanComponents, hStack, hReading]
      simp [Reading.stack, way]
    rw [clean, hWay, Reading.path, spelling]
    split
    · rename_i hNone
      rw [if_pos hNone]
    · rename_i hSome
      rw [if_neg hSome, ofComponents_way]

theorem clean_eq_iff {p q : Path} : p.clean = q.clean ↔ p.reading = q.reading := by
  constructor
  · intro hSame
    rw [← reading_clean p, hSame, reading_clean]
  · intro hSame
    rw [clean_eq_path, hSame, ← clean_eq_path]

example : (Path.mk "a/./b/../../..//c").reading = .relative 1 ["c"] := by decide

/-- What is joined to a path is read on from where the path leads, unless it is absolute. -/
theorem reading_join (p q : Path) :
    (p.join q).reading =
      if q.isAbsolute then q.reading else q.segments.foldl Reading.step p.reading := by
  split
  · rename_i hAbsolute
    rw [join, hAbsolute, Bool.true_or, if_pos rfl]
  · rename_i hRelative
    by_cases hEmpty : p.text = ""
    · obtain ⟨text⟩ := p
      subst hEmpty
      have hStart : (Path.mk "").reading = .relative 0 [] := by decide
      rw [join, if_pos (by simp), hStart, reading, if_neg hRelative]
    · apply Reading.stack_injective
      rw [← foldl_settle_eq_stack,
        components_join_relative hEmpty (Bool.eq_false_iff.mpr hRelative), List.foldl_append,
        foldl_settle_eq_stack]
      exact Reading.foldl_settle_stack _ _

/-- The spelling of a directory does not matter to what is joined to it. -/
theorem clean_join_clean (p q : Path) : (p.clean.join q).clean = (p.join q).clean := by
  rw [clean_eq_iff, reading_join, reading_join, reading_clean]

/-! ## The shortest text -/

/-- A text with nothing to leave out: no `.` beside other pieces, no two slashes side by side, no
slash at the end but the root itself, and steps up only at the front of a relative path. -/
structure Canonical (p : Path) : Prop where
  here : "." ∈ p.segments → p.text = "."
  slashes : ∀ s t, p.text ≠ s ++ "//" ++ t
  ended : ∀ s, p.text = s ++ "/" → s = ""
  ups : ∀ before after, p.segments = before ++ ".." :: after →
    p.isAbsolute = false ∧ ∀ piece ∈ before, piece = ".."

theorem named_reading (p : Path) : p.reading.Named := by
  apply Reading.Named.foldl
  · split
    · exact nofun
    · exact nofun
  · exact fun piece => slash_free_of_mem_segments

theorem tail_segments_append_slash (s t : String) :
    (Path.mk (s ++ "/" ++ t)).segments.tail =
      (Path.mk s).segments.tail ++ (Path.mk t).segments := by
  rw [segments_append_slash, List.tail_append_of_ne_nil (segments_ne_nil _)]

/-- A slash behind another one or at the end leaves an empty piece behind the first piece. -/
theorem Canonical.of_segments {p : Path} (hHere : "." ∈ p.segments → p.text = ".")
    (hEmpty : "" ∈ p.segments.tail → p.text = "/")
    (hUps : ∀ before after, p.segments = before ++ ".." :: after →
      p.isAbsolute = false ∧ ∀ piece ∈ before, piece = "..") : p.Canonical where
  here := hHere
  slashes s t hText := by
    have hTwo : s ++ "//" ++ t = s ++ "/" ++ ("/" ++ t) := by
      rw [← String.toList_inj]
      simp
    have hMem : "" ∈ p.segments.tail := by
      obtain ⟨text⟩ := p
      dsimp only at hText
      rw [hText, hTwo, tail_segments_append_slash, segments_slash]
      exact List.mem_append_right _ (.head _)
    have hLength := congrArg (fun text => text.toList.length) (hText.symm.trans (hEmpty hMem))
    simp only [String.toList_append, List.length_append] at hLength
    have hSlashes : "//".toList.length = 2 ∧ "/".toList.length = 1 := by decide
    omega
  ended s hText := by
    have hMem : "" ∈ p.segments.tail := by
      have hNone : (Path.mk "").segments = [""] := by decide
      obtain ⟨text⟩ := p
      dsimp only at hText
      rw [hText, ← String.append_empty (s := s ++ "/"), tail_segments_append_slash, hNone]
      exact List.mem_append_right _ (.head _)
    have hLength := congrArg String.length (hText.symm.trans (hEmpty hMem))
    simpa using hLength
  ups := hUps

namespace Reading

section Names

variable {names : Place} (h : ∀ s ∈ names, IsName s)

include h

theorem segments_path_absolute :
    names.path.segments = "" :: if names = [] then [""] else names.reverse := by
  have hText : names.path = ⟨"/" ++ "/".intercalate names.reverse⟩ := by
    simp [Place.path, ofComponents, Function.comp_def, Component.text]
  rw [hText, segments_slash]
  split
  · rename_i hNone
    subst hNone
    decide
  · rename_i hSome
    rw [segments_intercalate]
    · intro s hs
      exact (h s (List.mem_reverse.mp hs)).2.2.2
    · simpa using hSome

theorem plain_way_reverse (ups : Nat) : ∀ part ∈ way ups names.reverse, Plain part :=
  ProjectRoot.plain_way fun s hs => h s (List.mem_reverse.mp hs)

theorem segments_path_relative (ups : Nat) :
    (relative ups names).path.segments =
      if way ups names.reverse = [] then ["."] else List.replicate ups ".." ++ names.reverse := by
  rw [path, ProjectRoot.segments_spelling (plain_way_reverse h ups), ProjectRoot.text_way]

theorem marks_not_mem : "" ∉ names ∧ "." ∉ names ∧ ".." ∉ names := by
  have hNot : ∀ s, ¬ IsName s → s ∉ names := fun s hs hMem => hs (h s hMem)
  exact ⟨hNot _ (by decide), hNot _ (by decide), hNot _ (by decide)⟩

theorem canonical_path_absolute : names.path.Canonical := by
  have hSegments := segments_path_absolute h
  obtain ⟨hEmpty, hHere, hUp⟩ := marks_not_mem h
  apply Canonical.of_segments
  · intro hMem
    rw [hSegments] at hMem
    split at hMem
    · simp at hMem
    · simp [hHere] at hMem
  · intro hMem
    rw [hSegments, List.tail_cons] at hMem
    split at hMem
    · rename_i hNone
      subst hNone
      decide
    · simp [hEmpty] at hMem
  · intro before after hCut
    have hMem : ".." ∈ names.path.segments := by simp [hCut]
    rw [hSegments] at hMem
    split at hMem
    · simp at hMem
    · simp [hUp] at hMem

theorem canonical_path_relative (ups : Nat) : (relative ups names).path.Canonical := by
  have hSegments := segments_path_relative h ups
  obtain ⟨hEmpty, hHere, hUp⟩ := marks_not_mem h
  apply Canonical.of_segments
  · intro hMem
    rw [hSegments] at hMem
    split at hMem
    · rename_i hNone
      rw [path, spelling, if_pos hNone]
    · simp [hHere] at hMem
  · intro hMem
    have hMem := List.mem_of_mem_tail hMem
    rw [hSegments] at hMem
    split at hMem
    · simp at hMem
    · simp [hEmpty] at hMem
  · intro before after hCut
    refine ⟨ProjectRoot.isAbsolute_spelling (plain_way_reverse h ups), ?_⟩
    rw [hSegments] at hCut
    split at hCut
    · have hMem : ".." ∈ ["."] := by simp [hCut]
      simp at hMem
    · rcases List.append_eq_append_iff.mp hCut with ⟨more, hBefore, hNames⟩ | ⟨more, hFront, -⟩
      · have hMem : ".." ∈ names.reverse := by simp [hNames]
        exact absurd (List.mem_reverse.mp hMem) hUp
      · intro piece hPiece
        apply List.eq_of_mem_replicate (n := ups)
        rw [hFront]
        exact List.mem_append_left _ hPiece

end Names

end Reading

theorem canonical_clean (p : Path) : p.clean.Canonical := by
  have hNamed := named_reading p
  rw [clean_eq_path]
  cases hReading : p.reading with
  | absolute names =>
    rw [hReading] at hNamed
    exact Reading.canonical_path_absolute hNamed
  | relative ups names =>
    rw [hReading] at hNamed
    exact Reading.canonical_path_relative hNamed ups

end ModuleAtlas.Path
