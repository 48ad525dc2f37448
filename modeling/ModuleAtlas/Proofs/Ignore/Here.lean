import ModuleAtlas.Proofs.Glob.Names
import ModuleAtlas.Proofs.Ignore.Levels

/-!
# Rules seen from the working directory

The rules of the root's own file are asked about a path without the working directory in front. That
is the path below the working directory if the place lies there. Rules for names do not see the
difference, unless the working directory lies next to the place.
-/

namespace ModuleAtlas

open Files

theorem Text.after?_append (front rest : String) : after? front (front ++ rest) = some rest :=
  after?_eq_some_iff.mpr rfl

namespace Ignore

theorem Rule.applies_eq {r : Rule} {path name : String} (h : r.pattern.namesOnly = true)
    (hLast : (Path.mk path).segments.getLast? = some name) (isDirectory : Bool) :
    r.applies isDirectory path = r.applies isDirectory name := by
  rw [applies, applies, Glob.Pattern.matchesPath_eq h hLast]

theorem verdict?_eq_of_last {rules : List Rule} (h : ∀ r ∈ rules, r.pattern.namesOnly = true)
    {path name : String} (hLast : (Path.mk path).segments.getLast? = some name)
    (isDirectory : Bool) : verdict? rules isDirectory path = verdict? rules isDirectory name := by
  have hFind : ∀ rules : List Rule, (∀ r ∈ rules, r.pattern.namesOnly = true) →
      rules.find? (·.applies isDirectory path) = rules.find? (·.applies isDirectory name) := by
    intro rules h
    induction rules with
    | nil => rfl
    | cons r rules ih =>
      rw [List.find?_cons, List.find?_cons, Rule.applies_eq (h r (.head _)) hLast,
        ih fun r hr => h r (.tail _ hr)]
  rw [verdict?, verdict?, hFind rules.reverse (by simpa using h)]

namespace Judge

variable {rules : List Rule} {here : Place}

theorem fromHere_below {names : Place} (hNames : ∀ s ∈ names ++ here, IsName s)
    (hSome : names ≠ []) :
    (outside rules here.path.text).fromHere (Place.path (names ++ here)).text
      = Place.relative names := by
  have hBelow : ∀ s ∈ names, IsName s := fun s hs => hNames s (List.mem_append_left _ hs)
  have hHere : ∀ s ∈ here, IsName s := fun s hs => hNames s (List.mem_append_right _ hs)
  rw [Place.path_append hNames hSome, Place.closeWithSlash_path hHere, fromHere]
  dsimp only [outside]
  by_cases hTop : here = []
  · -- At the top the slash is part of the directory's own path.
    have hRelative : Text.after? "/" (Place.relative names) = none := by
      rw [Option.eq_none_iff_forall_ne_some]
      intro rest hRest
      have hAbsolute : (Path.mk (Place.relative names)).isAbsolute = true := by
        rw [Text.after?_eq_some_iff.mp hRest, Path.isAbsolute]
        simp
      rw [Place.not_absolute_relative hBelow hSome] at hAbsolute
      cases hAbsolute
    have hRoot : (Place.path []).text = "/" := by decide
    rw [if_pos hTop, hTop, hRoot, Text.after?_append]
    dsimp only
    rw [hRelative]
    rfl
  · rw [if_neg hTop, String.append_assoc, Text.after?_append]
    dsimp only
    rw [Text.after?_append]
    rfl

/-- Taking the working directory off the front of a path leaves its last name, unless the working
directory lies next to the path, where its text may end inside of that name. -/
theorem getLast?_fromHere {name : String} {dir : Place} (hNames : ∀ s ∈ name :: dir, IsName s)
    (hHere : ∀ s ∈ here, IsName s) (hApart : here ≠ [] → here.tail ≠ dir) :
    (Path.mk ((outside rules here.path.text).fromHere
      (Place.path (name :: dir)).text)).segments.getLast? = some name := by
  have hLast : (Place.path (name :: dir)).segments.getLast? = some name := by
    rw [Place.segments_path hNames (by simp), List.reverse_cons, ← List.cons_append]
    exact List.getLast?_concat
  have hBehind : ∀ front rest, (Place.path (name :: dir)).text = front ++ "/" ++ rest →
      (Path.mk rest).segments.getLast? = some name := by
    intro front rest hText
    have hPath : Place.path (name :: dir) = ⟨front ++ "/" ++ rest⟩ := congrArg Path.mk hText
    rw [hPath, Path.segments_append_slash,
      List.getLast?_append_of_ne_nil _ (Path.segments_ne_nil _)] at hLast
    exact hLast
  rw [fromHere]
  dsimp only [outside]
  cases hAfter : Text.after? here.path.text (Place.path (name :: dir)).text with
  | none => exact hLast
  | some rest =>
    have hText := Text.after?_eq_some_iff.mp hAfter
    dsimp only
    cases hSlash : Text.after? "/" rest with
    | some below =>
      rw [Text.after?_eq_some_iff.mp hSlash, ← String.append_assoc] at hText
      exact hBehind _ below hText
    | none =>
      cases here with
      | nil => exact hBehind "" rest hText
      | cons own above =>
        obtain ⟨last, hRest⟩ : ∃ last, (Path.mk rest).segments.getLast? = some last :=
          ⟨_, List.getLast?_eq_some_getLast (Path.segments_ne_nil _)⟩
        obtain ⟨hFree, rfl | ⟨front, rfl⟩⟩ := Path.getLast?_segments_iff.mp hRest
        · exact (hApart (by simp) (Place.dir_eq_of_text_eq hNames hHere hFree hText)).elim
        · rw [← String.append_assoc, ← String.append_assoc] at hText
          have hSame := hBehind _ last hText
          rw [Path.segments_of_slash_free hFree] at hSame
          rw [Option.getD_none, hRest]
          exact hSame

section Verdicts

variable {base above : Place} {name : String} {isDirectory : Bool}

theorem verdictOf?_below (l : Level) (rules : List Rule) :
    l.verdictOf? rules isDirectory (name :: (above ++ l.dir))
      = Ignore.verdict? rules isDirectory (Place.relative (name :: above)) := by
  rw [Level.verdictOf?, ← List.cons_append, Place.below?_append]
  rfl

theorem inside_eq_of_outside
    (h : (outside rules here.path.text).verdict? isDirectory (name :: (above ++ base))
      = Ignore.verdict? rules isDirectory (Place.relative (name :: above))) :
    (inside base rules here.path.text).verdict? isDirectory (name :: (above ++ base))
      = (outside rules here.path.text).verdict? isDirectory (name :: (above ++ base)) := by
  have hOwn := @verdictOf?_below above name isDirectory ⟨base, [], rules, [], true⟩ rules
  rw [inside_verdict? (List.suffix_append above base), hOwn, h]
  cases Ignore.verdict? rules isDirectory (Place.relative (name :: above)) <;> rfl

variable (hNames : ∀ s ∈ name :: (above ++ base), IsName s)

include hNames

theorem inside_eq_outside_at_root :
    (inside base rules base.path.text).verdict? isDirectory (name :: (above ++ base))
      = (outside rules base.path.text).verdict? isDirectory (name :: (above ++ base)) := by
  apply inside_eq_of_outside
  rw [outside_verdict?]
  exact congrArg _ (@fromHere_below rules base (name :: above) hNames (by simp))

theorem inside_eq_outside_of_names (hRules : ∀ r ∈ rules, r.pattern.namesOnly = true)
    (hHere : ∀ s ∈ here, IsName s) (hApart : base <:+ here → here = base) :
    (inside base rules here.path.text).verdict? isDirectory (name :: (above ++ base))
      = (outside rules here.path.text).verdict? isDirectory (name :: (above ++ base)) := by
  have hBeside : here ≠ [] → here.tail ≠ above ++ base := by
    intro hSome hTail
    have hBelow : base <:+ here := by
      have hAbove : base <:+ here.tail := hTail ▸ List.suffix_append above base
      exact hAbove.trans (List.tail_suffix here)
    have hLength := congrArg List.length hTail
    rw [hApart hBelow, List.length_append, List.length_tail] at hLength
    have hLong : 0 < base.length := by
      rw [← hApart hBelow]
      exact List.length_pos_iff.mpr hSome
    omega
  have hOwn : (Path.mk (Place.relative (name :: above))).segments.getLast? = some name := by
    have hBelow : ∀ s ∈ name :: above, IsName s := fun s hs =>
      hNames s (List.mem_append_left base hs)
    rw [Place.segments_relative hBelow (by simp), List.reverse_cons]
    exact List.getLast?_concat
  apply inside_eq_of_outside
  rw [outside_verdict?, verdict?_eq_of_last hRules (getLast?_fromHere hNames hHere hBeside),
    verdict?_eq_of_last hRules hOwn]

end Verdicts

end Judge

end Ignore

end ModuleAtlas
