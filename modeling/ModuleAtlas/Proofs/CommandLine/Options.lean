import ModuleAtlas.CommandLine.Options

/-!
# Flags of accepted command lines

A command line that is accepted holds no word that says nothing, and each of its flags is among the
options that it gives.
-/

namespace ModuleAtlas.CommandLine

/-- A flag that does not take the place of another one. -/
def Flag.Lasting (f : Flag) : Prop := f ≠ .transitive ∧ f ≠ .noTransitive

namespace Options

variable {o o' : Options}

theorem flags_addSetting? {value : String} {s : Setting} (h : o.addSetting? value s = some o') :
    o'.flags = o.flags := by
  cases s with
  | root | config | output =>
    obtain ⟨_, -, rfl⟩ := Option.map_eq_some_iff.mp h
    rfl
  | mode =>
    rw [addSetting?] at h
    split at h
    · cases h
      rfl
    · cases h
  | entry | scope =>
    cases h
    rfl

theorem mem_flags_addFlag? {f g : Flag} (hLasting : f.Lasting) (h : o.addFlag? g = some o') :
    f ∈ o'.flags ↔ f = g ∨ f ∈ o.flags := by
  obtain ⟨hTransitive, hNoTransitive⟩ := hLasting
  cases g <;> (simp only [addFlag?] at h; split at h <;> cases h)
  case transitive => simp [hTransitive]
  case noTransitive => simp [hNoTransitive]
  all_goals exact List.mem_cons

end Options

/-- An accepted list of items leaves no flag out that it holds or that was given before. -/
theorem Request.ofItems_run {o o' : Options} {items : List Item} {f : Flag} (hLasting : f.Lasting)
    (h : Request.ofItems o items = .run o') :
    .misuse ∉ items ∧ (f ∈ o.flags ∨ .flag f ∈ items → f ∈ o'.flags) := by
  fun_induction Request.ofItems o items with
  | case1 o hBoth => cases h
  | case2 o hBoth =>
    cases h
    simp
  | case3 | case4 | case5 | case7 | case9 => cases h
  | case6 o g rest hHelp hVersion o₁ hAdd ih =>
    obtain ⟨hUsed, hKeeps⟩ := ih h
    rw [Options.mem_flags_addFlag? hLasting hAdd] at hKeeps
    simp only [List.mem_cons, reduceCtorEq, false_or, Item.flag.injEq]
    refine ⟨hUsed, ?_⟩
    rintro (hBefore | rfl | hLater)
    · exact hKeeps (.inl (.inr hBefore))
    · exact hKeeps (.inl (.inl rfl))
    · exact hKeeps (.inr hLater)
  | case8 o s value rest o₁ hAdd ih =>
    obtain ⟨hUsed, hKeeps⟩ := ih h
    rw [Options.flags_addSetting? hAdd] at hKeeps
    simpa using ⟨hUsed, hKeeps⟩

/-! ## Words -/

theorem ofWord_stdout : ofWord "--stdout" = ([.flag .stdout], none) := by decide

theorem isValue_stdout : isValue "--stdout" = false := by decide

/-- The word counts wherever it stands, unless the command line is misused. -/
theorem stdout_mem_items {words : List String} (h : "--stdout" ∈ words) :
    .flag .stdout ∈ items words ∨ .misuse ∈ items words := by
  fun_induction items words with
  | case1 => cases h
  | case2 rest =>
    rcases List.mem_cons.mp h with hFirst | hRest
    · exact absurd hFirst (by decide)
    · exact .inr (List.mem_map.mpr ⟨_, hRest, rfl⟩)
  | case3 word rest hDashes found hWord ih =>
    rcases List.mem_cons.mp h with rfl | hRest
    · rw [ofWord_stdout] at hWord
      cases hWord
      simp
    · simpa using (ih hRest).imp .inr .inr
  | case4 word hDashes found s hWord value rest ih =>
    have hFirst : "--stdout" ≠ word := by
      rintro rfl
      rw [ofWord_stdout] at hWord
      cases hWord
    rcases List.mem_cons.mp ((List.mem_cons.mp h).resolve_left hFirst) with rfl | hRest
    · simp [isValue_stdout]
    · by_cases hValue : isValue value
      · simpa [hValue] using (ih hRest).imp .inr .inr
      · simp [hValue]
  | case5 => simp

theorem has_stdout_of_mem {words : List String} {o : Options} (h : Request.ofWords words = .run o)
    (hStdout : "--stdout" ∈ words) : o.has .stdout = true := by
  have hLasting : Flag.stdout.Lasting := ⟨nofun, nofun⟩
  obtain ⟨hUsed, hKeeps⟩ := Request.ofItems_run hLasting h
  rw [Options.has, List.contains_iff_mem]
  rcases stdout_mem_items hStdout with hFlag | hMisuse
  · exact hKeeps (.inr hFlag)
  · exact (hUsed hMisuse).elim

end ModuleAtlas.CommandLine
