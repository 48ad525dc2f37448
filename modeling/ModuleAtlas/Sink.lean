import ModuleAtlas.Files.Disk
import ModuleAtlas.Path.Basic

/-!
# Sinks

A sink takes the texts of a run one by one. It is a state and a writing step that may fail; the
state after a failure is kept, because what was written before stays written.
-/

namespace ModuleAtlas

structure WriteFailure where
  path : Path
  cause : Files.Fault
deriving DecidableEq

def WriteFailure.message (f : WriteFailure) : String :=
  "failed to write " ++ f.path.shown ++ ": " ++ f.cause.message

structure Sink (σ : Type) where
  write : Path → String → σ → Except WriteFailure Unit × σ

/-- Texts kept in memory by path, in order of first writing. -/
structure MemoryFiles where
  files : List (Path × String)
deriving DecidableEq

namespace MemoryFiles

def empty : MemoryFiles := ⟨[]⟩

def get? (m : MemoryFiles) (p : Path) : Option String := (m.files.find? (·.1.same p)).map Prod.snd

/-- Keeps a text for a path, in place of an earlier one. -/
def put (m : MemoryFiles) (p : Path) (text : String) : MemoryFiles :=
  if m.files.any (·.1.same p) then
    ⟨m.files.map fun f => if f.1.same p then (f.1, text) else f⟩
  else ⟨m.files ++ [(p, text)]⟩

def sink : Sink MemoryFiles := ⟨fun p text m => (.ok (), m.put p text)⟩

end MemoryFiles

end ModuleAtlas
