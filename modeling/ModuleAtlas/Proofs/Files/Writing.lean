import ModuleAtlas.Proofs.Files.Making
import ModuleAtlas.Proofs.Files.OneFile
import ModuleAtlas.Proofs.Path.Parent

/-!
# Writing files below a base directory

A text that is written to a disk is there as a whole, or no file is touched at all. On the way to it
directories may be made, also by a write that fails; each of them lies at the end of a path above the
path written to.
-/

namespace ModuleAtlas

namespace Files.Disk

variable {d d' : Disk} {p : Path} {dir : Place} {name : String} {old? : Option Content}

theorem exists_put_of_write {content : Content} (h : d.write p content = .ok d') :
    ∃ dir name old?, d.tree.get? (name :: dir) = Option.map Entry.file old? ∧
      d.destination true p = endAt dir name old? [] ∧ d.put dir name (.file content) = .ok d' := by
  rw [write] at h
  split at h
  · cases h
  · cases h
  · cases h
  · rename_i name dir e hNot hDestination
    cases found_destination hDestination with
    | directory => exact (hNot rfl).elim
    | file hGet => exact ⟨dir, name, some _, hGet, hDestination, h⟩
    | link hLast => cases hLast
  · rename_i dir name hDestination
    cases found_destination hDestination with
    | free hGet => exact ⟨dir, name, none, hGet, hDestination, h⟩
  · cases h

theorem asDirectory_of_endAt {piece : String} {rest : List String} {destination : Destination}
    (h : endAt dir name old? (piece :: rest) = .ok destination) : destination.asDirectory = true := by
  cases old? with
  | none =>
    rw [endAt] at h
    split at h
    · cases h
      rfl
    · cases h
  | some content =>
    rw [endAt] at h
    split at h
    · cases h
      rfl
    · cases h

theorem endAt_nil_inj {rest : List String} (h : endAt dir name old? [] = endAt dir name old? rest) :
    rest = [] := by
  cases rest with
  | nil => rfl
  | cons piece rest =>
    cases old? with
    | none => cases asDirectory_of_endAt h.symm
    | some content => cases asDirectory_of_endAt h.symm

theorem entry_written {content : Content} (h : DifferAt dir name old? (some content) d.tree d'.tree)
    (hHere : d'.here = d.here) (hEnd : d.destination true p = endAt dir name old? []) :
    d'.entry p = .ok (name :: dir, .file content) := by
  have hWritten : d'.destination true p = endAt dir name (some content) [] := by
    rcases parallel_destination h hHere true p with hSame | ⟨rest, hOld, hNew⟩
    · -- The end that the path had before would not be found on the changed disk.
      rw [hSame, hEnd]
      have hAfter := h.after
      cases old? with
      | none =>
        cases found_destination (hSame.trans hEnd) with
        | free hFree =>
          rw [hFree] at hAfter
          cases hAfter
      | some old =>
        cases found_destination (hSame.trans hEnd) with
        | file hFile =>
          rw [hFile] at hAfter
          cases hAfter
          rfl
    · rw [hEnd] at hOld
      rw [hNew, endAt_nil_inj hOld]
  exact entry_of_endAt hWritten

theorem entry_directory_differ {new? : Option Content} {place : Place}
    (h : DifferAt dir name old? new? d.tree d'.tree) (hHere : d'.here = d.here)
    (hEntry : d.entry p = .ok (place, .directory)) : d'.entry p = .ok (place, .directory) := by
  rcases parallel_destination h hHere true p with hSame | ⟨rest, hOld, -⟩
  · rw [← hEntry, entry, entry, hSame]
  · rw [entry_of_endAt hOld] at hEntry
    obtain ⟨-, content, hFile⟩ | ⟨fault, hFault⟩ := entryAt_cases dir name old? rest
    · rw [hFile] at hEntry
      cases hEntry
    · rw [hFault] at hEntry
      cases hEntry

/-! ## What a write leaves as it was -/

/-- Nothing is lost, and what is new are directories at the ends of paths above the target; this is
left open for one place, if one is named. -/
structure OnlyAdds (target : Path) (file? : Option Place) (d d' : Disk) : Prop where
  here : d'.here = d.here
  kept : ∀ place e, some place ≠ file? → d.tree.get? place = some e → d'.tree.get? place = some e
  added : ∀ place e, some place ≠ file? → d.tree.get? place = none → d'.tree.get? place = some e →
    e = .directory ∧ ∃ q, q.IsAbove target ∧ d'.entry q = .ok (place, .directory)

theorem OnlyAdds.file_iff {target : Path} {file? : Option Place} (h : OnlyAdds target file? d d')
    {place : Place} (hOther : some place ≠ file?) (content : Content) :
    d'.tree.get? place = some (.file content) ↔ d.tree.get? place = some (.file content) := by
  constructor
  · intro hAfter
    cases hBefore : d.tree.get? place with
    | none => cases (h.added place _ hOther hBefore hAfter).1
    | some e => rw [← hAfter, h.kept place e hOther hBefore]
  · exact h.kept place _ hOther

theorem onlyAdds_makeParents (d : Disk) (target : Path) :
    OnlyAdds target none d (d.makeParents target).2 := by
  rw [makeParents]
  have hGrown := grown_makeDirectories ((target.parent?.map Path.ancestors).getD []) d
  refine ⟨hGrown.here, fun place e _ => hGrown.within place e, fun place e _ hNone hSome => ?_⟩
  obtain ⟨hDirectory, q, hq, hEntry⟩ := hGrown.new place e hNone hSome
  refine ⟨hDirectory, q, ?_, hEntry⟩
  cases hParent : target.parent? with
  | none =>
    rw [hParent] at hq
    cases hq
  | some parent =>
    rw [hParent] at hq
    exact Path.isAbove_of_mem_ancestors hParent hq

theorem OnlyAdds.written {target : Path} {d₁ d₂ : Disk} {new : Content}
    (h : OnlyAdds target none d d₁) (hDiffer : DifferAt dir name old? (some new) d₁.tree d₂.tree)
    (hHere : d₂.here = d₁.here) : OnlyAdds target (some (name :: dir)) d d₂ where
  here := hHere.trans h.here
  kept place e hOther hBefore := by
    have hPlace : place ≠ name :: dir := fun hSame => hOther (congrArg some hSame)
    rw [hDiffer.elsewhere place hPlace]
    exact h.kept place e nofun hBefore
  added place e hOther hBefore hAfter := by
    have hPlace : place ≠ name :: dir := fun hSame => hOther (congrArg some hSame)
    rw [hDiffer.elsewhere place hPlace] at hAfter
    obtain ⟨hDirectory, q, hAbove, hEntry⟩ := h.added place e nofun hBefore hAfter
    exact ⟨hDirectory, q, hAbove, entry_directory_differ hDiffer hHere hEntry⟩

/-- A write that succeeds leaves the whole content at one place, where a file or nothing was. -/
theorem write_spec {target : Path} {d₁ d₂ : Disk} {content : Content}
    (h : OnlyAdds target none d d₁) (hWrite : d₁.write target content = .ok d₂) :
    ∃ file, d₂.entry target = .ok (file, .file content) ∧
      d₂.tree.get? file = some (.file content) ∧
      (∀ e, d.tree.get? file = some e → ∃ old, e = .file old) ∧
      OnlyAdds target (some file) d d₂ := by
  obtain ⟨dir, name, old?, hOld, hEnd, hPut⟩ := exists_put_of_write hWrite
  have hDiffer := differAt_put hOld hPut
  have hHere := here_put hPut
  refine ⟨name :: dir, entry_written hDiffer hHere hEnd, hDiffer.after, fun e hBefore => ?_,
    h.written hDiffer hHere⟩
  rw [h.kept _ e nofun hBefore] at hOld
  obtain ⟨old, -, rfl⟩ := Option.map_eq_some_iff.mp hOld.symm
  exact ⟨old, rfl⟩

/-- Making the directories above a path and writing to it succeeds in both, or adds directories. -/
theorem writeWithParents_outcome (d : Disk) (target : Path) (content : Content) :
    (∃ d', d.writeWithParents target content = (.ok (), d') ∧
      ∃ file, d'.entry target = .ok (file, .file content) ∧
        d'.tree.get? file = some (.file content) ∧
        (∀ e, d.tree.get? file = some e → ∃ old, e = .file old) ∧
        OnlyAdds target (some file) d d') ∨
      ∃ fault d', d.writeWithParents target content = (.error fault, d') ∧
        OnlyAdds target none d d' := by
  have hAdds := d.onlyAdds_makeParents target
  rw [writeWithParents]
  rcases hParents : d.makeParents target with ⟨fault | _, d₁⟩
  · rw [hParents] at hAdds
    exact .inr ⟨fault, d₁, rfl, hAdds⟩
  · rw [hParents] at hAdds
    dsimp only at hAdds ⊢
    cases hWrite : d₁.write target content with
    | error fault => exact .inr ⟨fault, d₁, rfl, hAdds⟩
    | ok d₂ => exact .inl ⟨d₂, rfl, write_spec hAdds hWrite⟩

end Files.Disk

open Files

/-- A text handed to the sink of a disk is written as a whole, or no file is touched. If the sink
succeeds, the path below its base leads to a file with exactly this text; every other file is what
it was, nothing is gone, and each new directory is where a path above the one written to leads. If it
fails, it names the path, and every file is what it was. -/
theorem disk_text_is_whole_or_touches_no_file (base p : Path) (text : String) (d : Disk) :
    ∃ result d', (diskSink base).write p text d = (result, d') ∧
      ((result = .ok () ∧ d'.read (base.join p) = .ok text ∧
          ∃ file, d'.canonical (base.join p) = .ok file ∧
            d'.tree.get? file = some (.file (.text text)) ∧
            (∀ e, d.tree.get? file = some e → ∃ old, e = .file old) ∧
            (∀ place content, place ≠ file →
              (d'.tree.get? place = some (.file content) ↔
                d.tree.get? place = some (.file content))) ∧
            Disk.OnlyAdds (base.join p) (some file) d d') ∨
        ∃ cause, result = .error ⟨base.join p, cause⟩ ∧
          (∀ place content, d'.tree.get? place = some (.file content) ↔
            d.tree.get? place = some (.file content)) ∧
          Disk.OnlyAdds (base.join p) none d d') := by
  rcases d.writeWithParents_outcome (base.join p) (.text text) with
    ⟨d', hWrite, file, hEntry, hHeld, hReplaced, hAdds⟩ | ⟨cause, d', hWrite, hAdds⟩
  · refine ⟨.ok (), d', ?_, .inl ⟨rfl, ?_, file, ?_, hHeld, hReplaced, ?_, hAdds⟩⟩
    · rw [diskSink]
      dsimp only
      rw [hWrite]
      rfl
    · rw [Disk.read, Disk.content, hEntry]
    · rw [Disk.canonical, hEntry]
      rfl
    · intro place content hOther
      exact hAdds.file_iff (fun hSame => hOther (Option.some.inj hSame)) content
  · refine ⟨.error ⟨base.join p, cause⟩, d', ?_, .inr ⟨cause, rfl, ?_, hAdds⟩⟩
    · rw [diskSink]
      dsimp only
      rw [hWrite]
      rfl
    · exact fun place content => hAdds.file_iff (Option.some_ne_none place) content

section Note

/-- A file where a directory would be needed. -/
def noteTree : Option FileTree := do
  let t ← FileTree.empty.put? [] "p" .directory
  t.put? ["p"] "note" (.file (.text "kept"))

def noteDisk : Disk := ⟨noteTree.getD .empty, []⟩

/-- The write makes a directory on the way before it fails, and the file in its way stays. -/
theorem note_survives_blocked_write : ∃ d',
    (diskSink ⟨"/p"⟩).write ⟨"new/../note/index.md"⟩ "# Index" noteDisk =
      (.error ⟨⟨"/p/new/../note/index.md"⟩, .exists⟩, d') ∧
    d'.isDirectory ⟨"/p/new"⟩ = true ∧
    ∀ content, d'.tree.get? ["note", "p"] = some (.file content) ↔ content = .text "kept" := by
  have hFails : ((diskSink ⟨"/p"⟩).write ⟨"new/../note/index.md"⟩ "# Index" noteDisk).1 =
      .error ⟨⟨"/p/new/../note/index.md"⟩, .exists⟩ := by decide +kernel
  have hMade : ((diskSink ⟨"/p"⟩).write ⟨"new/../note/index.md"⟩ "# Index"
      noteDisk).2.isDirectory ⟨"/p/new"⟩ = true := by decide +kernel
  have hNote : noteDisk.tree.get? ["note", "p"] = some (.file (.text "kept")) := by decide +kernel
  obtain ⟨result, d', hWrite, ⟨rfl, -⟩ | ⟨cause, -, hFiles, -⟩⟩ :=
    disk_text_is_whole_or_touches_no_file ⟨"/p"⟩ ⟨"new/../note/index.md"⟩ "# Index" noteDisk
  · rw [hWrite] at hFails
    cases hFails
  · rw [hWrite] at hFails hMade
    dsimp only at hFails hMade
    refine ⟨d', hFails ▸ hWrite, hMade, fun content => ?_⟩
    rw [hFiles, hNote]
    simp [eq_comm]

end Note

/-- The directories above the file are made on the way, and the text is read back. -/
example :
    let written := (diskSink ⟨"/p"⟩).write ⟨"graphs/screens/index.md"⟩ "# Index" ⟨.empty, []⟩
    written.1 = .ok () ∧
      written.2.read ⟨"/p/graphs/screens/index.md"⟩ = .ok "# Index" ∧
      written.2.isDirectory ⟨"/p/graphs"⟩ = true := by
  decide +kernel

end ModuleAtlas
