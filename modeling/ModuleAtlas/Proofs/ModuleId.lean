import ModuleAtlas.Proofs.ModuleId.Reading
import ModuleAtlas.Proofs.ModuleSet
import ModuleAtlas.Proofs.Text.Bytes

/-!
# Identities as names of locations

The identity made from a path is a canonical name of where the path leads: every path that leads
there has this identity, and its text is the shortest one. Identities are ordered by their
components, and no two of them compare equal, so that equal ones stand side by side in a sorted list
and none is left twice once repetitions are erased.
-/

namespace ModuleAtlas

open Std

/-! ## The order -/

namespace Component

/-- The root comes first, then `.`, then a step up, then names in the order of their bytes. -/
inductive Precedes : Component → Component → Prop
  | root_here : Precedes .root .here
  | root_up : Precedes .root .up
  | root_name {t : String} : Precedes .root (.name t)
  | here_up : Precedes .here .up
  | here_name {t : String} : Precedes .here (.name t)
  | up_name {t : String} : Precedes .up (.name t)
  | name {s t : String} : Text.encode s.toList < Text.encode t.toList →
      Precedes (.name s) (.name t)
  /-- Two texts for the same bytes. -/
  | respelled {s t : String} : Text.encode s.toList = Text.encode t.toList → s < t →
      Precedes (.name s) (.name t)

theorem precedes_of_rank_lt {a b : Component} (h : a.rank < b.rank) : a.Precedes b := by
  cases a <;> cases b <;> simp [rank] at h <;> constructor

theorem eq_or_names_of_rank_eq {a b : Component} (h : a.rank = b.rank) :
    a = b ∨ ∃ s t, a = .name s ∧ b = .name t := by
  cases a <;> cases b <;> simp [rank] at h ⊢

theorem compare_eq_lt_iff {a b : Component} : compare a b = .lt ↔ a.Precedes b := by
  have hLex : compare a b = (compare a.rank b.rank).then
      ((compare a.bytes b.bytes).then (compare a.text b.text)) := rfl
  rw [hLex, Ordering.then_eq_lt, Ordering.then_eq_lt, Nat.compare_eq_lt, Nat.compare_eq_eq,
    Text.compare_encoded_eq_lt_iff, LawfulEqOrd.compare_eq_iff_eq, compare_lt_iff_lt]
  constructor
  · rintro (hRank | ⟨hRank, hName⟩)
    · exact precedes_of_rank_lt hRank
    · obtain rfl | ⟨s, t, rfl, rfl⟩ := eq_or_names_of_rank_eq hRank
      · simp [List.lt_irrefl] at hName
      · rcases hName with hBytes | ⟨hSame, hText⟩
        · exact .name hBytes
        · exact .respelled hSame hText
  · intro h
    cases h with
    | name hBytes => exact .inr ⟨rfl, .inl hBytes⟩
    | respelled hSame hText => exact .inr ⟨rfl, .inr ⟨hSame, hText⟩⟩
    | root_here | root_up | root_name | here_up | here_name | up_name =>
      left
      simp [rank]

/-- Names that are text sort as texts. -/
theorem precedes_name_iff {s t : String} (hs : Text.isText s = true) (ht : Text.isText t = true) :
    Precedes (.name s) (.name t) ↔ Text.bytes s < Text.bytes t := by
  rw [← Text.encode_of_isText hs, ← Text.encode_of_isText ht]
  constructor
  · intro h
    cases h with
    | name hBytes => exact hBytes
    | respelled hSame hText =>
      rw [Text.encode_of_isText hs, Text.encode_of_isText ht]
      exact Text.bytes_lt_iff.mpr hText
  · exact .name

end Component

/-- Paths compare by their components, one after the other. -/
theorem Path.compare_eq_lt_iff {p q : Path} :
    compare p q = .lt ↔ p.components.Lex Component.Precedes q.components := by
  change compare p.components q.components = .lt ↔ _
  generalize p.components = parts, q.components = parts'
  induction parts generalizing parts' with
  | nil => cases parts' <;> simp
  | cons a parts ih =>
    cases parts' with
    | nil => simp
    | cons b parts' =>
      rw [List.compare_cons_cons, Ordering.then_eq_lt, List.cons_lex_cons_iff,
        Component.compare_eq_lt_iff, LawfulEqOrd.compare_eq_iff_eq, ih]

-- The texts are in the other order, because `-` has a smaller code than the slash.
example : compare (Path.mk "/a/b") ⟨"/a-b"⟩ = .lt ∧ "/a-b" < "/a/b" := by decide +kernel

theorem Path.compare_eq_eq_iff {p q : Path} : compare p q = .eq ↔ p.same q = true := by
  change compare p.components q.components = .eq ↔ _
  rw [LawfulEqOrd.compare_eq_iff_eq, same, beq_iff_eq]

/-! ## Identities -/

namespace ModuleId

theorem ofPath_eq_iff {p q : Path} : ofPath p = ofPath q ↔ p.reading = q.reading := by
  rw [← Path.clean_eq_iff, ofPath, ofPath, mk.injEq]

/-- Identities that differ at all differ in their components. -/
theorem same_ofPath_iff {p q : Path} :
    (ofPath p).path.same (ofPath q).path = true ↔ ofPath p = ofPath q := by
  rw [Path.same, beq_iff_eq]
  constructor
  · exact fun hSame => congrArg mk (Path.clean_eq_of_components_eq hSame)
  · exact fun hSame => congrArg (fun m => m.path.components) hSame

theorem compare_eq_gt_iff {m m' : ModuleId} :
    compare m m' = .gt ↔ m'.path.components.Lex Component.Precedes m.path.components := by
  rw [OrientedCmp.gt_iff_lt]
  exact Path.compare_eq_lt_iff

/-- Two paths have one identity exactly if they lead to the same location. Making an identity again
changes nothing, its text is canonical, and what is joined to a directory has the same identity
however the directory is spelled. Identities are ordered by their components, one after the other,
and names that are text by their bytes: for any two identities one comes first or their components
are the same, and then they are one identity. So a set of modules lists each of them once, in
increasing order. -/
theorem identity_names_location :
    (∀ p q : Path, ofPath p = ofPath q ↔ p.reading = q.reading) ∧
    (∀ p : Path, ofPath (ofPath p).path = ofPath p) ∧
    (∀ p : Path, (ofPath p).path.Canonical) ∧
    (∀ dir p : Path, ofPath ((ofPath dir).path.join p) = ofPath (dir.join p)) ∧
    TransOrd ModuleId ∧
    (∀ m m' : ModuleId,
      (compare m m' = .lt ↔ m.path.components.Lex Component.Precedes m'.path.components) ∧
      (compare m m' = .eq ↔ m.path.same m'.path = true) ∧
      (compare m m' = .gt ↔ m'.path.components.Lex Component.Precedes m.path.components)) ∧
    (∀ s t : String, Text.isText s = true → Text.isText t = true →
      (Component.Precedes (.name s) (.name t) ↔ Text.bytes s < Text.bytes t)) ∧
    (∀ p q : Path, (ofPath p).path.same (ofPath q).path = true ↔ ofPath p = ofPath q) ∧
    ∀ (root : Path) (paths : List Path),
      (ModuleSet.ofModules root (paths.map ofPath)).modules.Nodup ∧
      Increasing (ModuleSet.ofModules root (paths.map ofPath)).modules ∧
      ∀ m, m ∈ (ModuleSet.ofModules root (paths.map ofPath)).modules ↔ m ∈ paths.map ofPath := by
  refine ⟨fun _ _ => ofPath_eq_iff, fun p => ?_, Path.canonical_clean, fun dir p => ?_,
    inferInstance, fun _ _ => ⟨Path.compare_eq_lt_iff, Path.compare_eq_eq_iff, compare_eq_gt_iff⟩,
    fun _ _ => Component.precedes_name_iff, fun _ _ => same_ofPath_iff, fun root paths => ?_⟩
  · exact congrArg mk p.clean_clean
  · exact congrArg mk (dir.clean_join_clean p)
  · have hIncreasing := ModuleSet.increasing_ofModules root paths
    exact ⟨hIncreasing.nodup, hIncreasing, fun m => mem_sortedDistinct⟩

end ModuleId

end ModuleAtlas
