import ModuleAtlas.Proofs.Files.Lookup

/-!
# Directories made on the way

Making a directory fills a name that was free, and the path that asked for it leads there afterwards.
So making a directory with its parents loses nothing, even where it fails half way: the disk holds
all that it held, and what is new are directories at the ends of the paths that were asked for.
-/

namespace ModuleAtlas.Files

namespace FileTree

variable {t t' : FileTree} {last asDirectory : Bool} {start dir : Place} {name : String}

/-- What a tree holds at the end of a path. A path that was followed through links to its end does not
end at a link. -/
inductive Found (t : FileTree) (last : Bool) : Destination → Prop
  | directory {place : Place} {asDirectory : Bool} :
      Found t last ⟨.taken place .directory, asDirectory⟩
  | file {place : Place} {content : Content} {asDirectory : Bool} :
      t.get? place = some (.file content) → Found t last ⟨.taken place (.file content), asDirectory⟩
  | link {place : Place} {target : Path} {asDirectory : Bool} :
      last = false → Found t last ⟨.taken place (.link target), asDirectory⟩
  | free {dir : Place} {name : String} {asDirectory : Bool} :
      t.get? (name :: dir) = none → Found t last ⟨.free dir name, asDirectory⟩

theorem found_follow {onLink : Place → Path → List String → Except Fault Destination}
    (hLink : ∀ start target rest destination, onLink start target rest = .ok destination →
      t.Found last destination)
    {pieces : List String} {destination : Destination}
    (h : t.follow last onLink start pieces = .ok destination) : t.Found last destination := by
  fun_induction FileTree.follow t last onLink start pieces with
  | case1 =>
    cases h
    exact .directory
  | case2 _ _ _ _ ih | case3 _ _ _ ih | case4 _ _ _ _ _ _ ih => exact ih h
  | case5 _ _ _ _ _ atEnd target hGet hStop =>
    cases h
    exact .link (by simpa using (Bool.and_eq_true_iff.mp hStop).2)
  | case6 => exact hLink _ _ _ _ h
  | case7 _ _ _ _ _ atEnd content hGet hEnd =>
    cases h
    exact .file hGet
  | case8 => cases h
  | case9 _ _ _ _ _ atEnd hGet hEnd =>
    cases h
    exact .free hGet
  | case10 => cases h

theorem found_trace {links : Nat} {pieces : List String} {destination : Destination}
    (h : t.trace last links start pieces = .ok destination) : t.Found last destination := by
  induction links generalizing start pieces destination with
  | zero =>
    refine found_follow (fun _ _ _ _ hLink => ?_) h
    cases hLink
  | succ links ih => exact found_follow (fun _ _ _ _ hLink => ih hLink) h

theorem follow_blank {onLink : Place → Path → List String → Except Fault Destination}
    {rest : List String} (h : rest.all (· == "") = true) :
    t.follow last onLink dir rest = .ok ⟨.taken dir .directory, true⟩ := by
  induction rest with
  | nil => rfl
  | cons piece rest ih =>
    rw [List.all_cons, Bool.and_eq_true, beq_iff_eq] at h
    obtain ⟨rfl, hRest⟩ := h
    rw [follow_empty, ih hRest]

/-- A path to a free name leads to the directory that is made there. -/
theorem follow_made (hWithin : t.Within t') (hMade : t'.get? (name :: dir) = some .directory)
    {onLink onLink' : Place → Path → List String → Except Fault Destination}
    (hLink : ∀ start target rest, onLink start target rest = .ok ⟨.free dir name, asDirectory⟩ →
      onLink' start target rest = .ok ⟨.taken (name :: dir) .directory, true⟩)
    {pieces : List String}
    (h : t.follow last onLink start pieces = .ok ⟨.free dir name, asDirectory⟩) :
    t'.follow true onLink' start pieces = .ok ⟨.taken (name :: dir) .directory, true⟩ := by
  fun_induction FileTree.follow t last onLink start pieces with
  | case1 => cases h
  | case2 start piece rest hStay ih => rw [follow, if_pos hStay, ih h]
  | case3 start rest hStay ih => rw [follow, if_neg hStay, if_pos rfl, ih h]
  | case4 start piece rest hStay hUp hGet ih =>
    rw [follow, if_neg hStay, if_neg hUp, hWithin _ _ hGet]
    exact ih h
  | case5 => cases h
  | case6 start piece rest hStay hUp atEnd target hGet hGoes =>
    rw [follow, if_neg hStay, if_neg hUp, hWithin _ _ hGet]
    simpa using hLink _ _ _ h
  | case7 => cases h
  | case8 => cases h
  | case9 start piece rest hStay hUp atEnd hGet hEnd =>
    cases h
    rw [follow, if_neg hStay, if_neg hUp, hMade]
    exact follow_blank hEnd
  | case10 => cases h

theorem trace_made (hWithin : t.Within t') (hMade : t'.get? (name :: dir) = some .directory)
    {links : Nat} {pieces : List String}
    (h : t.trace last links start pieces = .ok ⟨.free dir name, asDirectory⟩) :
    t'.trace true links start pieces = .ok ⟨.taken (name :: dir) .directory, true⟩ := by
  induction links generalizing start pieces with
  | zero =>
    refine follow_made hWithin hMade (fun _ _ _ hLink => ?_) h
    cases hLink
  | succ links ih => exact follow_made hWithin hMade (fun _ _ _ hLink => ih hLink) h

end FileTree

namespace Disk

variable {d d' d'' : Disk} {p : Path}

theorem found_destination {last : Bool} {destination : Destination}
    (h : d.destination last p = .ok destination) : d.tree.Found last destination := by
  rw [Disk.destination] at h
  split at h
  · cases h
  · exact FileTree.found_trace h

theorem exists_put_of_makeDirectory (h : d.makeDirectory p = .ok d') :
    ∃ dir name asDirectory, d.destination false p = .ok ⟨.free dir name, asDirectory⟩ ∧
      d.put dir name .directory = .ok d' := by
  rw [makeDirectory] at h
  split at h
  · cases h
  · cases h
  · rename_i dir name asDirectory hFree
    exact ⟨dir, name, asDirectory, hFree, h⟩

/-- Nothing is lost, and what is new are directories to which some of the paths lead. -/
structure Grown (paths : List Path) (d d' : Disk) : Prop where
  here : d'.here = d.here
  within : d.tree.Within d'.tree
  new : ∀ place e, d.tree.get? place = none → d'.tree.get? place = some e →
    e = .directory ∧ ∃ q ∈ paths, d'.entry q = .ok (place, .directory)

theorem Grown.refl (paths : List Path) (d : Disk) : Grown paths d d where
  here := rfl
  within _ _ h := h
  new place e hNone hSome := by
    rw [hNone] at hSome
    cases hSome

theorem Grown.mono {paths paths' : List Path} (h : Grown paths d d') (hPaths : paths ⊆ paths') :
    Grown paths' d d' where
  here := h.here
  within := h.within
  new place e hNone hSome := by
    obtain ⟨hDirectory, q, hq, hEntry⟩ := h.new place e hNone hSome
    exact ⟨hDirectory, q, hPaths hq, hEntry⟩

theorem Grown.trans {paths : List Path} (h : Grown paths d d') (h' : Grown paths d' d'') :
    Grown paths d d'' where
  here := h'.here.trans h.here
  within place e hGet := h'.within place e (h.within place e hGet)
  new place e hNone hSome := by
    cases hBetween : d'.tree.get? place with
    | none => exact h'.new place e hBetween hSome
    | some e' =>
      obtain ⟨rfl, q, hq, hEntry⟩ := h.new place e' hNone hBetween
      rw [h'.within _ _ hBetween] at hSome
      cases hSome
      exact ⟨rfl, q, hq, entry_within h'.within h'.here hEntry⟩

theorem grown_makeDirectory (h : d.makeDirectory p = .ok d') : Grown [p] d d' := by
  obtain ⟨dir, name, asDirectory, hDestination, hPut⟩ := exists_put_of_makeDirectory h
  have hFree : d.tree.get? (name :: dir) = none := by
    cases found_destination hDestination with
    | free hFree => exact hFree
  have hWithin := within_put hPut hFree
  have hMade : d'.tree.get? (name :: dir) = some .directory := by rw [get?_put hPut, if_pos rfl]
  have hEntry : d'.entry p = .ok (name :: dir, .directory) := by
    rw [destination] at hDestination
    split at hDestination
    · cases hDestination
    · rename_i hText
      have hStart : d'.start p = d.start p := by rw [start, start, here_put hPut]
      rw [entry, destination, if_neg hText, hStart, FileTree.trace_made hWithin hMade hDestination]
  refine ⟨here_put hPut, hWithin, fun place e hNone hSome => ?_⟩
  rw [get?_put hPut] at hSome
  split at hSome
  · subst_vars
    cases hSome
    exact ⟨rfl, p, .head _, hEntry⟩
  · rw [hNone] at hSome
    cases hSome

theorem grown_makeDirectories (paths : List Path) (d : Disk) :
    Grown paths d (makeDirectories paths d).2 := by
  induction paths generalizing d with
  | nil => exact .refl [] d
  | cons p ancestors ih =>
    have hStep {d d' : Disk} (h : d.makeDirectory p = .ok d') : Grown (p :: ancestors) d d' :=
      (grown_makeDirectory h).mono (by simp)
    have hAbove := (ih d).mono (List.subset_cons_self p ancestors)
    rw [makeDirectories]
    split
    · exact .refl _ d
    · split
      · rename_i hMade
        exact hStep hMade
      · -- The parents come first, and then the directory is tried again.
        rcases hParents : makeDirectories ancestors d with ⟨_ | _, d₁⟩
        · rw [hParents] at hAbove
          exact hAbove
        · rw [hParents] at hAbove
          dsimp only at hAbove ⊢
          rw [makeDirectories.finish]
          split
          · rename_i hMade
            exact hAbove.trans (hStep hMade)
          · exact hAbove
      · exact .refl _ d

end Disk

end ModuleAtlas.Files
