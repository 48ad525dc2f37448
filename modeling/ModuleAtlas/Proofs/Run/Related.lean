import ModuleAtlas.Run

/-!
# Runs into related sinks

A run asks its sink for nothing but whether a text was taken, and sees the project only as the sink
shows it. So two sinks whose states stay related while they take the same texts see the same run:
it ends alike, in states that are related.
-/

namespace ModuleAtlas.Run

variable {σ τ : Type} (R : σ → τ → Prop)

/-- Ends with the same result, in related states. -/
def RelatedEnds {α : Type} (done : α × σ) (done' : α × τ) : Prop :=
  done.1 = done'.1 ∧ R done.2 done'.2

/-- From related states the sinks take a text alike. -/
def RelatedSinks (sink : Sink σ) (sink' : Sink τ) : Prop :=
  ∀ path text s t, R s t → RelatedEnds R (sink.write path text s) (sink'.write path text t)

variable {R} {c : Config} {modules : ModuleSet} {steps : Nat}

theorem RelatedEnds.next {α β : Type} {done : Except RunFailure α × σ}
    {done' : Except RunFailure α × τ} {rest : α → σ → Except RunFailure β × σ}
    {rest' : α → τ → Except RunFailure β × τ} (h : RelatedEnds R done done')
    (hRest : ∀ a s t, R s t → RelatedEnds R (rest a s) (rest' a t)) :
    RelatedEnds R (next done rest) (next done' rest') := by
  obtain ⟨result, s⟩ := done
  obtain ⟨_, t⟩ := done'
  obtain ⟨rfl, hStates⟩ := h
  cases result with
  | error failure => exact ⟨rfl, hStates⟩
  | ok a => exact hRest a s t hStates

section Sinks

variable {sink : Sink σ} {sink' : Sink τ} (hSinks : RelatedSinks R sink sink')

include hSinks

theorem relatedEnds_write (path : Path) (text : Except RunFailure String) {s : σ} {t : τ}
    (h : R s t) : RelatedEnds R (write sink path text s) (write sink' path text t) := by
  refine RelatedEnds.next ⟨rfl, h⟩ fun text s t h => ?_
  obtain ⟨hResult, hStates⟩ := hSinks path text s t h
  rcases hWrite : sink.write path text s with ⟨result, s'⟩
  rcases hWrite' : sink'.write path text t with ⟨result', t'⟩
  rw [hWrite, hWrite'] at hResult hStates
  dsimp only at hResult hStates
  subst hResult
  cases result with
  | error cause => exact ⟨rfl, hStates⟩
  | ok => exact ⟨rfl, hStates⟩

variable {look : σ → Project} {look' : τ → Project} (hLook : ∀ s t, R s t → look s = look' t)

include hLook

theorem relatedEnds_writeEntries (entries : List ModuleId) (done : Progress) {s : σ} {t : τ}
    (h : R s t) :
    RelatedEnds R (writeEntries c modules steps look sink entries done s)
      (writeEntries c modules steps look' sink' entries done t) := by
  induction entries generalizing done s t with
  | nil => exact ⟨rfl, h⟩
  | cons e entries ih =>
    rw [writeEntries, writeEntries, hLook s t h]
    exact (relatedEnds_write hSinks _ _ h).next fun _ _ _ h => ih _ h

theorem relatedEnds_runEntries (entries : List ModuleId) {s : σ} {t : τ} (h : R s t) :
    RelatedEnds R (runEntries c modules steps look sink entries s)
      (runEntries c modules steps look' sink' entries t) := by
  refine (relatedEnds_writeEntries hSinks hLook entries _ h).next fun _ _ _ h => ?_
  exact (relatedEnds_write hSinks _ _ h).next fun _ _ _ h => ⟨rfl, h⟩

theorem relatedEnds_runProject {s : σ} {t : τ} (h : R s t) :
    RelatedEnds R (runProject c modules steps look sink s)
      (runProject c modules steps look' sink' t) := by
  rw [runProject, runProject, hLook s t h]
  exact (relatedEnds_write hSinks _ _ h).next fun _ _ _ h => ⟨rfl, h⟩

theorem relatedEnds_execute {s : σ} {t : τ} (h : R s t) :
    RelatedEnds R (execute c modules steps look sink s)
      (execute c modules steps look' sink' t) := by
  rw [execute, execute]
  cases c.mode with
  | project => exact relatedEnds_runProject hSinks hLook h
  | entries =>
    dsimp only
    cases modules.select c.entryGlobs with
    | error cause => exact ⟨rfl, h⟩
    | ok entries =>
      cases entries with
      | nil => exact ⟨rfl, h⟩
      | cons e entries => exact relatedEnds_runEntries hSinks hLook (e :: entries) h

end Sinks

/-- Over the files of a disk, too, the sinks see the same run. -/
theorem relatedEnds_overFiles {sink : Sink σ} {sink' : Sink τ} (hSinks : RelatedSinks R sink sink')
    {disk : σ → Files.Disk} {disk' : τ → Files.Disk} (hDisk : ∀ s t, R s t → disk s = disk' t)
    {s : σ} {t : τ} (h : R s t) :
    RelatedEnds R (overFiles c disk sink s) (overFiles c disk' sink' t) := by
  rw [overFiles, overFiles, hDisk s t h]
  cases ModuleSet.discover (disk' t) c.root c.scanGlobs c.includeDeclarations with
  | error cause => exact ⟨rfl, h⟩
  | ok modules =>
    refine relatedEnds_execute hSinks (fun s t h => ?_) h
    rw [hDisk s t h]

end ModuleAtlas.Run
