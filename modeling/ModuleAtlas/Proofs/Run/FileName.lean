import ModuleAtlas.Proofs.Path.Spelling
import ModuleAtlas.Run

/-!
# File names of entries

A slug holds no slash, so the name of an entry's file is one path component. The manifest is named
like the file of an entry with the slug `index`.
-/

namespace ModuleAtlas

namespace Slug

/-- Letters and digits of ASCII, underscores, dots, hyphens and square brackets. -/
def isFileChar (c : Char) : Bool :=
  c.isAlphanum || c == '_' || c == '.' || c == '-' || c == '[' || c == ']'

theorem isFileChar_of_mem_spell {c d : Char} (h : d ∈ spell c) : isFileChar d = true := by
  rw [spell] at h
  split at h
  · simp only [List.mem_cons, List.not_mem_nil, or_false, or_self] at h
    rw [h]
    decide
  · rename_i hOther
    split at h
    · rename_i hPlain
      rw [List.mem_singleton.mp h]
      simpa [isPlain, isFileChar, hOther] using hPlain
    · rw [List.mem_singleton.mp h]
      decide

theorem isFileChar_of_mem_ofEntry {relative sourceRoot : String} {c : Char}
    (h : c ∈ (ofEntry relative sourceRoot).toList) : isFileChar c = true := by
  rw [ofEntry, String.toList_ofList] at h
  obtain ⟨_, -, hSpelled⟩ := List.mem_flatMap.mp h
  exact isFileChar_of_mem_spell hSpelled

theorem ofEntry_slash_free (relative sourceRoot : String) :
    '/' ∉ (ofEntry relative sourceRoot).toList :=
  fun h => Bool.false_ne_true (isFileChar_of_mem_ofEntry h)

end Slug

namespace Run

theorem fileOf_inj {slug slug' : String} : fileOf slug = fileOf slug' ↔ slug = slug' := by
  rw [fileOf, fileOf, String.append_left_inj]

theorem manifestFile_eq : manifestFile = fileOf "index" := by decide

theorem plain_fileOf {slug : String} (h : '/' ∉ slug.toList) :
    Component.Plain (.name (fileOf slug)) := by
  have hLength : 3 ≤ (fileOf slug).toList.length := by
    rw [fileOf, String.toList_append, List.length_append]
    exact Nat.le_add_left ..
  have hLong : ∀ s : String, s.toList.length < 3 → fileOf slug ≠ s := by
    rintro s hShort rfl
    omega
  refine .name ?_ (hLong "" (by decide)) (hLong "." (by decide)) (hLong ".." (by decide))
  rw [fileOf, String.toList_append, List.mem_append, not_or]
  exact ⟨h, by decide⟩

theorem plain_fileOf_slugOf (c : Config) (modules : ModuleSet) (entry : ModuleId) :
    Component.Plain (.name (fileOf (slugOf c modules entry))) :=
  plain_fileOf (Slug.ofEntry_slash_free _ _)

theorem plain_manifestFile : Component.Plain (.name manifestFile) := by
  rw [manifestFile_eq]
  exact plain_fileOf (by decide)

end Run

end ModuleAtlas
