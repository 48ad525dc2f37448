import ModuleAtlas.Proofs.Text
import ModuleAtlas.Resolver

/-!
# Candidates and probes

Registered rewritings and the base of bare specifiers leave the root as it is, and neither of them
counts for a specifier that is a path: such a specifier has a single candidate. A candidate that is
a file is found before any other spelling of it.
-/

namespace ModuleAtlas

theorem head?_relative {s : String} (h : isRelativeSpecifier s = true) :
    s.toList.head? = some '.' := by
  simp only [isRelativeSpecifier, Bool.or_eq_true, beq_iff_eq, Text.startsWith_iff] at h
  rcases h with ((rfl | rfl) | ⟨rest, rfl⟩) | ⟨rest, rfl⟩
  · rfl
  · rfl
  · simp
  · simp

namespace Probe

theorem file?_self {isFile isDirectory : Path → Bool} {candidate : Path}
    (h : isFile candidate = true) : file? isFile isDirectory candidate = some candidate := by
  rw [file?, paths, spellings, List.cons_append, List.cons_append, List.find?_cons_of_pos h]

end Probe

namespace Resolver

variable {r : Resolver}

@[simp] theorem root_ofRoot (root : Path) : (ofRoot root).root = root.clean := rfl

@[simp] theorem root_withAliases (added : List Alias) : (r.withAliases added).root = r.root := rfl

@[simp] theorem root_withBase (base : Path) : (r.withBase base).root = r.root := rfl

@[simp] theorem root_ofSettings (root : Path) (tsconfig? : Option TsConfig)
    (aliases : Dictionary String) : (ofSettings root tsconfig? aliases).root = root.clean := by
  rw [ofSettings, root_withAliases]
  split <;> rfl

theorem candidates_relative (importer : Path) {s : String} (h : isRelativeSpecifier s = true) :
    r.candidates importer s = [((importer.parent?.getD ⟨""⟩).join ⟨s⟩).clean] := by
  rw [candidates, if_pos h]

theorem candidates_fromRoot (importer : Path) (s : String) :
    r.candidates importer ("/" ++ s) = [(r.root.join ⟨s⟩).clean] := by
  have hRest : Text.after? "/" ("/" ++ s) = some s := Text.after?_eq_some_iff.mpr rfl
  have hRelative : ¬ isRelativeSpecifier ("/" ++ s) = true := by
    intro hRelative
    have hHead := head?_relative hRelative
    rw [String.toList_append] at hHead
    cases hHead
  rw [candidates, if_neg hRelative, hRest]

theorem resolve?_of_file {isFile isDirectory : Path → Bool} {importer : ModuleId} {s : String}
    {candidate : Path} (hCandidates : r.candidates importer.path s = [candidate])
    (hFile : isFile candidate = true) :
    r.resolve? isFile isDirectory importer s = some (.ofPath candidate) := by
  rw [resolve?, hCandidates, List.findSome?_cons, Probe.file?_self hFile]
  rfl

end Resolver

end ModuleAtlas
