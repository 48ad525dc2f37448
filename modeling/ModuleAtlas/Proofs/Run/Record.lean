import ModuleAtlas.Proofs.Run.Plan
import ModuleAtlas.Proofs.Run.Related

/-!
# Recorded runs

A sink can keep an account of the texts it takes, in their order. A run does not notice: without
the account it is the run into the sink itself.
-/

namespace ModuleAtlas

variable {σ : Type}

def Sink.recorded (sink : Sink σ) : Sink (σ × List (Path × String)) where
  write path text s :=
    match sink.write path text s.1 with
    | (.ok (), t) => (.ok (), (t, s.2 ++ [(path, text)]))
    | (.error cause, t) => (.error cause, (t, s.2))

namespace Run

variable {c : Config} {modules : ModuleSet} {p : Project} {steps : Nat} {sink : Sink σ}

def erase {α : Type} (done : Except RunFailure α × (σ × List (Path × String))) :
    Except RunFailure α × σ :=
  (done.1, done.2.1)

theorem relatedSinks_recorded (sink : Sink σ) :
    RelatedSinks (fun s t => s = t.1) sink sink.recorded := by
  rintro path text s ⟨state, written⟩ hState
  obtain rfl : s = state := hState
  rw [Sink.recorded]
  dsimp only
  rcases sink.write path text s with ⟨_ | _, t⟩
  · exact ⟨rfl, rfl⟩
  · exact ⟨rfl, rfl⟩

theorem erase_execute (s : σ) (written : List (Path × String)) :
    erase (execute c modules steps (fun _ => p) sink.recorded (s, written)) =
      execute c modules steps (fun _ => p) sink s := by
  have hEnds : RelatedEnds (fun s t => s = t.1) (execute c modules steps (fun _ => p) sink s)
      (execute c modules steps (fun _ => p) sink.recorded (s, written)) :=
    relatedEnds_execute (relatedSinks_recorded sink) (fun _ _ _ => rfl) rfl
  exact Prod.ext hEnds.1.symm hEnds.2.symm

theorem Ends.erase {s : σ} {written : List (Path × String)}
    {outcome : Except RunFailure Report × (σ × List (Path × String))}
    (h : Ends c modules p sink.recorded (s, written) outcome) :
    Ends c modules p sink s (erase outcome) := by
  obtain ⟨enough, hEnough⟩ := h
  refine ⟨enough, fun steps hSteps => ?_⟩
  rw [← hEnough steps hSteps, erase_execute]

end Run

end ModuleAtlas
