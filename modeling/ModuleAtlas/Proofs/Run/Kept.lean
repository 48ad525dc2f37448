import ModuleAtlas.Proofs.MemoryFiles
import ModuleAtlas.Proofs.Path.Join
import ModuleAtlas.Proofs.Run.FileName
import ModuleAtlas.Proofs.Run.Prefix
import ModuleAtlas.Proofs.Walk.Strict

/-!
# What a run over entries leaves behind

Every graph is written to the file that the slug of its entry names, and nothing keeps two entries
from sharing a slug. In memory a file holds what was written to it last: the manifest is always
there, and the graph of an entry is there unless a later entry, or the manifest, goes by its slug.
-/

namespace ModuleAtlas.Run

variable {σ : Type} {c : Config} {modules : ModuleSet} {p : Project}

def entryFile (c : Config) (modules : ModuleSet) (e : ModuleId) : Path :=
  c.outputPath.join ⟨fileOf (slugOf c modules e)⟩

def manifestPath (c : Config) : Path := c.outputPath.join ⟨manifestFile⟩

def manifestText (c : Config) (modules : ModuleSet) (entries : List ModuleId) : String :=
  "\n".intercalate (manifestHeader :: "" :: manifestLines c modules entries)

/-! ## A run that succeeds has built every graph -/

theorem next_eq_ok {α β : Type} {done : Except RunFailure α × σ}
    {rest : α → σ → Except RunFailure β × σ} {b : β} {s' : σ} (h : next done rest = (.ok b, s')) :
    ∃ a t, done = (.ok a, t) ∧ rest a t = (.ok b, s') := by
  obtain ⟨_ | a, t⟩ := done
  · cases h
  · exact ⟨a, t, rfl, h⟩

theorem write_eq_ok {sink : Sink σ} {path : Path} {text : Except RunFailure String} {s s' : σ}
    (h : write sink path text s = (.ok (), s')) : ∃ written, text = .ok written := by
  cases text with
  | error failure => cases h
  | ok written => exact ⟨written, rfl⟩

theorem build_of_diagram {steps : Nat} {entries : List ModuleId} {text : String}
    (h : diagram c modules steps entries p = .ok text) :
    ∃ g, (builder c modules p).build c.transitive steps entries = some (.ok g) := by
  rw [diagram] at h
  split at h
  · rename_i g hBuild
    exact ⟨g, hBuild⟩
  · cases h
  · cases h

theorem writeEntries_built {steps : Nat} {sink : Sink σ} {entries : List ModuleId}
    {done done' : Progress} {s s' : σ}
    (h : writeEntries c modules steps (fun _ => p) sink entries done s = (.ok done', s')) :
    ∀ e ∈ entries, ∃ g, (builder c modules p).build c.transitive steps [e] = some (.ok g) := by
  induction entries generalizing done s with
  | nil =>
    intro e he
    cases he
  | cons e entries ih =>
    rw [writeEntries] at h
    obtain ⟨_, t, hWrite, hRest⟩ := next_eq_ok h
    obtain ⟨text, hText⟩ := write_eq_ok hWrite
    intro n hn
    rcases List.mem_cons.mp hn with rfl | hn
    · exact build_of_diagram hText
    · exact ih hRest n hn

/-- A run over entries that succeeds and is not idle drew a graph of each entry. -/
theorem Ends.drawn_entries {sink : Sink σ} {s s' : σ} {report : Report} (hMode : c.mode = .entries)
    (hEnds : Ends c modules p sink s (.ok report, s')) (hSome : report.graphs ≠ 0) :
    ∃ (entries : List ModuleId) (graphOf : ModuleId → Graph),
      modules.select c.entryGlobs = .ok entries ∧ entries ≠ [] ∧
      ∀ e ∈ entries, (builder c modules p).Ends c.transitive [e] (.ok (graphOf e)) := by
  obtain ⟨enough, hEnough⟩ := hEnds
  have hRun := hEnough enough le_rfl
  rw [execute, hMode] at hRun
  dsimp only at hRun
  split at hRun
  · cases hRun
  · cases hRun
    exact (hSome rfl).elim
  · rename_i entries hNonempty hSelect
    rw [runEntries] at hRun
    obtain ⟨done, t, hWritten, -⟩ := next_eq_ok hRun
    have hEach : ∀ e ∈ entries, ∃ g,
        (builder c modules p).Ends c.transitive [e] (.ok g) := by
      intro e he
      obtain ⟨g, hBuild⟩ := writeEntries_built hWritten e he
      exact ⟨g, Builder.ends_of_build hBuild⟩
    have : Nonempty Graph := ⟨.empty⟩
    choose! graphOf hGraphOf using hEach
    refine ⟨entries, graphOf, hSelect, ?_, hGraphOf⟩
    rintro rfl
    exact hNonempty rfl

/-! ## What is left in memory -/

theorem accepts_memory (m : MemoryFiles) (written : List (Path × String)) :
    Accepts MemoryFiles.sink m written (m.putAll written) := by
  induction written generalizing m with
  | nil => exact .nil
  | cons w written ih => exact .cons rfl (ih (m.put w.1 w.2))

/-- The texts of a run over entries whose graphs are known, in the order of writing. -/
def entryTexts (c : Config) (modules : ModuleSet) (graphOf : ModuleId → Graph)
    (entries : List ModuleId) : List (Path × String) :=
  entries.map fun e => (entryFile c modules e, Diagram.render c.fence (graphOf e))

theorem entriesPlan_ok (graphOf : ModuleId → Graph) (entries : List ModuleId) :
    entriesPlan c modules (fun e => .ok (graphOf e)) entries =
      (entryTexts c modules graphOf entries ++
        [(manifestPath c, manifestText c modules entries)]).map planned := by
  simp [entriesPlan, entryTexts, entryWrite, entryFile, drawn, Except.map, planned, manifestWrite,
    manifestPath, manifestText]

def entryFiles (c : Config) (modules : ModuleSet) (graphOf : ModuleId → Graph)
    (entries : List ModuleId) : MemoryFiles :=
  MemoryFiles.empty.putAll (entryTexts c modules graphOf entries ++
    [(manifestPath c, manifestText c modules entries)])

variable {entries : List ModuleId} {graphOf : ModuleId → Graph}

theorem ends_in_memory (hMode : c.mode = .entries)
    (hSelect : modules.select c.entryGlobs = .ok entries) (hNonempty : entries ≠ [])
    (hDrawn : ∀ e ∈ entries, (builder c modules p).Ends c.transitive [e] (.ok (graphOf e))) :
    Ends c modules p MemoryFiles.sink .empty
      (.ok ⟨.entries, entries.length, entries.map (entryFile c modules) ++ [manifestPath c]⟩,
        entryFiles c modules graphOf entries) := by
  have hRun := (Plans.entries hMode hSelect hNonempty hDrawn).ends MemoryFiles.sink .empty
  have hOutputs : (entriesPlan c modules (fun e => .ok (graphOf e)) entries).map
      PlannedWrite.path = entries.map (entryFile c modules) ++ [manifestPath c] := by
    simp [entriesPlan, entryWrite, entryFile, manifestWrite, manifestPath, Function.comp_def]
  have hCarries (report : Report) : CarriesOut MemoryFiles.sink
      (entriesPlan c modules (fun e => .ok (graphOf e)) entries) report .empty
      (.ok report, entryFiles c modules graphOf entries) :=
    .complete _ (entriesPlan_ok graphOf entries) (accepts_memory .empty _)
  rw [carriesOut_iff.mp (hCarries _), hOutputs] at hRun
  exact hRun

theorem same_entryFile_iff {e e' : ModuleId} :
    (entryFile c modules e).same (entryFile c modules e') = true ↔
      slugOf c modules e = slugOf c modules e' := by
  rw [entryFile, entryFile, Path.same_join_iff (plain_fileOf_slugOf ..) (plain_fileOf_slugOf ..),
    fileOf_inj]

theorem same_manifestPath_iff {e : ModuleId} :
    (entryFile c modules e).same (manifestPath c) = true ↔ slugOf c modules e = "index" := by
  rw [entryFile, manifestPath, Path.same_join_iff (plain_fileOf_slugOf ..) plain_manifestFile,
    manifestFile_eq, fileOf_inj]

theorem get?_manifest :
    (entryFiles c modules graphOf entries).get? (manifestPath c) =
      some (manifestText c modules entries) :=
  MemoryFiles.get?_putAll_last _ _ _ (by rw [Path.same_iff]) nofun

/-- The last entry with a slug is the one whose graph its file holds. -/
theorem get?_entryFile {before after : List ModuleId} {e : ModuleId}
    (hSplit : entries = before ++ e :: after) (hManifest : slugOf c modules e ≠ "index")
    (hLast : ∀ n ∈ after, slugOf c modules n ≠ slugOf c modules e) :
    (entryFiles c modules graphOf entries).get? (entryFile c modules e) =
      some (Diagram.render c.fence (graphOf e)) := by
  have hWritten : entryTexts c modules graphOf entries ++
      [(manifestPath c, manifestText c modules entries)] =
      entryTexts c modules graphOf before ++
        (entryFile c modules e, Diagram.render c.fence (graphOf e)) ::
          (entryTexts c modules graphOf after ++
            [(manifestPath c, manifestText c modules entries)]) := by
    simp [entryTexts, hSplit]
  rw [entryFiles, hWritten]
  apply MemoryFiles.get?_putAll_last
  · rw [Path.same_iff]
  · intro w hw
    rw [Bool.eq_false_iff]
    intro hSame
    rcases List.mem_append.mp hw with hEntry | hEnd
    · obtain ⟨n, hn, rfl⟩ := List.mem_map.mp hEntry
      dsimp only at hSame
      exact hLast n hn (same_entryFile_iff.mp hSame)
    · rw [List.mem_singleton.mp hEnd, Path.same_comm] at hSame
      exact hManifest (same_manifestPath_iff.mp hSame)

/-- No two files of a run are one place exactly if no two of its slugs are alike, the manifest's
included. -/
theorem apart_iff :
    (entries.map (entryFile c modules) ++ [manifestPath c]).Pairwise
        (fun path path' => ¬ path.same path') ↔
      (entries.map (slugOf c modules)).Nodup ∧ "index" ∉ entries.map (slugOf c modules) := by
  have hEnd : (∀ path ∈ entries.map (entryFile c modules), ∀ path' ∈ [manifestPath c],
      ¬ path.same path') ↔ "index" ∉ entries.map (slugOf c modules) := by
    simp only [List.mem_map, List.mem_singleton, forall_eq, forall_exists_index, and_imp,
      forall_apply_eq_imp_iff₂, same_manifestPath_iff, not_exists, not_and]
  rw [List.pairwise_append, hEnd, List.Nodup, List.pairwise_map, List.pairwise_map]
  simp only [same_entryFile_iff, List.pairwise_singleton, true_and, ne_eq]

theorem get?_entryFile_of_nodup (hSlugs : (entries.map (slugOf c modules)).Nodup)
    (hManifest : "index" ∉ entries.map (slugOf c modules)) {e : ModuleId} (he : e ∈ entries) :
    (entryFiles c modules graphOf entries).get? (entryFile c modules e) =
      some (Diagram.render c.fence (graphOf e)) := by
  obtain ⟨before, after, hSplit⟩ := List.append_of_mem he
  apply get?_entryFile hSplit
  · intro hIndex
    exact hManifest (hIndex ▸ List.mem_map_of_mem he)
  · rw [hSplit, List.map_append, List.map_cons] at hSlugs
    have hLater := (List.nodup_cons.mp (List.Nodup.of_append_right hSlugs)).1
    intro n hn hSame
    exact hLater (hSame ▸ List.mem_map_of_mem hn)

/-- A run over entries keeps one file for each graph exactly if the slugs of its entries differ from
one another and from the name of the manifest. Otherwise the last text written to a file stays. -/
theorem entries_kept_iff_slugs_differ (c : Config) (modules : ModuleSet) (p : Project)
    (report : Report) (files : MemoryFiles) (hMode : c.mode = .entries)
    (hEnds : Ends c modules p MemoryFiles.sink .empty (.ok report, files))
    (hSome : report.graphs ≠ 0) :
    ∃ (entries : List ModuleId) (graphOf : ModuleId → Graph),
      modules.select c.entryGlobs = .ok entries ∧
      (∀ e ∈ entries, (builder c modules p).Ends c.transitive [e] (.ok (graphOf e))) ∧
      report.graphs = entries.length ∧
      report.outputs = entries.map (entryFile c modules) ++ [manifestPath c] ∧
      files.get? (manifestPath c) = some (manifestText c modules entries) ∧
      (∀ before e after, entries = before ++ e :: after → slugOf c modules e ≠ "index" →
        (∀ n ∈ after, slugOf c modules n ≠ slugOf c modules e) →
        files.get? (entryFile c modules e) = some (Diagram.render c.fence (graphOf e))) ∧
      ((report.outputs.Pairwise (fun path path' => ¬ path.same path') ∧
          ∀ e ∈ entries, files.get? (entryFile c modules e) =
            some (Diagram.render c.fence (graphOf e))) ↔
        (entries.map (slugOf c modules)).Nodup ∧ "index" ∉ entries.map (slugOf c modules)) := by
  obtain ⟨entries, graphOf, hSelect, hNonempty, hDrawn⟩ := hEnds.drawn_entries hMode hSome
  cases hEnds.unique (ends_in_memory hMode hSelect hNonempty hDrawn)
  refine ⟨entries, graphOf, hSelect, hDrawn, rfl, rfl, get?_manifest,
    fun _ _ _ => get?_entryFile, ?_⟩
  rw [apart_iff]
  constructor
  · exact And.left
  · rintro ⟨hSlugs, hManifest⟩
    exact ⟨⟨hSlugs, hManifest⟩, fun e he => get?_entryFile_of_nodup hSlugs hManifest he⟩

def pairConfig : Config := { entryGlobs := ["src/*"] }

theorem pair_keeps_both_graphs : ∃ report files,
    Ends pairConfig ringModules Builder.ring.toProject MemoryFiles.sink .empty
      (.ok report, files) ∧
    report.graphs = 2 ∧ report.outputs.Pairwise (fun path path' => ¬ path.same path') := by
  have hSelect : ringModules.select pairConfig.entryGlobs =
      .ok [Builder.ringStart, Builder.ringEnd] := by
    decide +kernel
  have hEach : ∀ e, ∃ g, (builder pairConfig ringModules Builder.ring.toProject).Ends true [e]
      (.ok g) := fun e =>
    Builder.lenient_ends (b := builder pairConfig ringModules Builder.ring.toProject)
      (Builder.finite_reaches_memory rfl true [e])
  choose graphOf hDrawn using hEach
  have hRun := ends_in_memory (c := pairConfig) rfl hSelect (by simp) fun e _ => hDrawn e
  obtain ⟨entries, _, hEntries, -, hGraphs, -, -, -, hKept⟩ :=
    entries_kept_iff_slugs_differ pairConfig ringModules Builder.ring.toProject _ _ rfl hRun
      (by simp)
  rw [hSelect] at hEntries
  cases hEntries
  exact ⟨_, _, hRun, hGraphs, (hKept.mpr (by decide +kernel)).1⟩

section Blog

def blogLayout : ModuleId := ⟨⟨"/p/src/app/blog/layout.tsx"⟩⟩

def blogPage : ModuleId := ⟨⟨"/p/src/app/blog/page.tsx"⟩⟩

def blogTheme : ModuleId := ⟨⟨"/p/src/theme.ts"⟩⟩

/-- Two entries in one directory below `app/`, which both go by the name of that directory. -/
def blog : MemoryProject where
  modules := [(blogLayout, [⟨"../../theme", .static, false⟩]), (blogPage, []), (blogTheme, [])]
  links := [⟨blogLayout, "../../theme", blogTheme⟩]

def blogConfig : Config := { entryGlobs := ["src/app/**"] }

def blogModules : ModuleSet := ⟨⟨"/p"⟩, [blogLayout, blogPage, blogTheme]⟩

def blogGraph (e : ModuleId) : Graph :=
  if e = blogLayout then ⟨["app/blog/layout", "theme"], [⟨"app/blog/layout", "theme"⟩]⟩
  else ⟨["app/blog/page"], []⟩

theorem blog_drawn : ∀ e ∈ [blogLayout, blogPage],
    (builder blogConfig blogModules blog.toProject).Ends blogConfig.transitive [e]
      (.ok (blogGraph e)) := by
  have hLayout : (builder blogConfig blogModules blog.toProject).traverse true 2 [blogLayout] =
      .done ⟨[blogTheme, blogLayout], (blogGraph blogLayout).nodes,
        (blogGraph blogLayout).edges⟩ := rfl
  have hPage : (builder blogConfig blogModules blog.toProject).traverse true 1 [blogPage] =
      .done ⟨[blogPage], (blogGraph blogPage).nodes, (blogGraph blogPage).edges⟩ := rfl
  intro e he
  simp only [List.mem_cons, List.not_mem_nil, or_false] at he
  rcases he with rfl | rfl
  · exact Builder.ends_of_traverse hLayout (by decide +kernel) (.refl _) (.refl _)
  · exact Builder.ends_of_traverse hPage (by decide +kernel) (.refl _) (.refl _)

/-- The page takes the file of the layout, and the report counts both. -/
theorem blog_loses_layout : ∃ report files,
    Ends blogConfig blogModules blog.toProject MemoryFiles.sink .empty (.ok report, files) ∧
    report.graphs = 2 ∧ ¬ report.outputs.Pairwise (fun path path' => ¬ path.same path') ∧
    ∃ entries, blogModules.select blogConfig.entryGlobs = .ok entries ∧ ∃ e ∈ entries, ∃ g,
      (builder blogConfig blogModules blog.toProject).Ends blogConfig.transitive [e] (.ok g) ∧
      files.get? (entryFile blogConfig blogModules e) ≠
        some (Diagram.render blogConfig.fence g) := by
  have hSelect : blogModules.select blogConfig.entryGlobs = .ok [blogLayout, blogPage] := by
    decide +kernel
  have hLayout : slugOf blogConfig blogModules blogLayout = "app__blog" := by decide +kernel
  have hPage : slugOf blogConfig blogModules blogPage = "app__blog" := by decide +kernel
  have hRun := ends_in_memory (c := blogConfig) rfl hSelect (by simp) blog_drawn
  refine ⟨_, _, hRun, rfl, ?_, _, hSelect, blogLayout, .head _, _, blog_drawn _ (.head _), ?_⟩
  · dsimp only
    rw [apart_iff, List.map_cons, List.map_cons, hLayout, hPage]
    decide
  · have hFile : entryFile blogConfig blogModules blogLayout =
        entryFile blogConfig blogModules blogPage := by
      rw [entryFile, entryFile, hLayout, hPage]
    have hLast : [blogLayout, blogPage] = [blogLayout] ++ blogPage :: [] := rfl
    have hHeld : (entryFiles blogConfig blogModules blogGraph [blogLayout, blogPage]).get?
        (entryFile blogConfig blogModules blogPage) =
          some (Diagram.render blogConfig.fence (blogGraph blogPage)) :=
      get?_entryFile hLast (by rw [hPage]; decide) nofun
    rw [hFile, hHeld]
    decide +kernel

end Blog

end ModuleAtlas.Run
