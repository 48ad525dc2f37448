import ModuleAtlas.Project.Files
import ModuleAtlas.Proofs.Discovery
import ModuleAtlas.Proofs.ProjectRoot
import ModuleAtlas.Proofs.Resolver
import ModuleAtlas.Proofs.Walk.ReachableGraph

/-!
# One identity for a module

A specifier that leads to the path of a discovered module, from the importing module's directory or
from the root, resolves to the identity that was discovered, whatever rewritings are registered. So
a module that is imported and a module that is an entry are expanded once, and they are one node.
From the root only names that are text lead to a module, since a specifier is text.
-/

namespace ModuleAtlas

open Files

namespace ModuleSet

variable {d : Disk} {root : Path} {patterns : List String} {declarations : Bool}
  {modules : ModuleSet} (h : discover d root patterns declarations = .ok modules)
  {m : ModuleId} (hm : m ∈ modules.modules)

include h hm

theorem resolve?_of_candidates {r : Resolver} {importer : ModuleId} {s : String}
    (hCandidates : r.candidates importer.path s = [m.path]) : d.resolve? r importer s = some m := by
  rw [Disk.resolve?, Resolver.resolve?_of_file hCandidates (isFile_of_mem h hm), ModuleId.ofPath,
    clean_of_mem h hm]

theorem resolve?_relative {r : Resolver} {importer : ModuleId} {s : String}
    (hRelative : isRelativeSpecifier s = true)
    (hLeads : ((importer.path.parent?.getD ⟨""⟩).join ⟨s⟩).clean = m.path) :
    d.resolve? r importer s = some m := by
  apply resolve?_of_candidates h hm
  rw [Resolver.candidates_relative _ hRelative, hLeads]

theorem resolve?_fromRoot {r : Resolver} (hRoot : r.root = modules.root.clean)
    (importer : ModuleId) (hLegible : (ProjectRoot.ofPath modules.root).Legible m.path) :
    d.resolve? r importer ("/" ++ (ProjectRoot.ofPath modules.root).normalize m.path) = some m := by
  apply resolve?_of_candidates h hm
  have hLeads := (ProjectRoot.clean_join_root_iff (isAbsolute_root h)
    (isAbsolute_of_mem h hm)).mpr hLegible
  rw [Resolver.candidates_fromRoot, hRoot, hLeads, clean_of_mem h hm]

end ModuleSet

namespace Builder

variable {b : Builder} {m t : ModuleId} {r : Reference}

theorem target_eq_module_iff (hResolve : b.project.resolve? m r.specifier = some t) (id : ModuleId)
    (label : String) :
    b.target m r = .ok (.module id label) ↔
      b.LeadsTo m r t ∧ id = t ∧ label = b.labeler.label t.path := by
  rw [leadsTo_iff hResolve, Internal, Builder.target, hResolve]
  simp only [targetOf]
  cases b.labeler.root.locate t.path with
  | external => cases hShown : b.options.includeExternal <;> simp [external, hShown]
  | outsideRoot => simp
  | internal =>
    cases b.scope.covers (b.labeler.root.normalize t.path) <;>
      simp [Labeler.label, eq_comm]

theorem draws_of_leadsTo (hFollows : b.Follows m r) (hLeads : b.LeadsTo m r t)
    (hDiffer : b.labeler.label m.path ≠ b.labeler.label t.path) :
    b.Draws m ⟨b.labeler.label m.path, b.labeler.label t.path⟩ := by
  have hPoints : b.PointsTo m r (b.labeler.label t.path) := .module hLeads
  rw [Draws]
  dsimp only
  exact ⟨rfl, hDiffer, r, hFollows, hPoints⟩

/-- A module that a reference leads to, and that is an entry too or found by following, is expanded
once and is the node that the edge ends in. -/
theorem expanded_once {transitive : Bool} {steps : Nat} {entries : List ModuleId} {done : Traversal}
    (hDone : b.traverse transitive steps entries = .done done) (hExpanded : m ∈ done.expanded)
    (hFollows : b.Follows m r) (hLeads : b.LeadsTo m r t)
    (hRoot : transitive = true ∨ t ∈ entries) :
    done.expanded.count t = 1 ∧ b.labeler.label t.path ∈ done.draft.toGraph.nodes ∧
      (b.labeler.label m.path ≠ b.labeler.label t.path →
        ⟨b.labeler.label m.path, b.labeler.label t.path⟩ ∈ done.draft.toGraph.edges) := by
  have hMembers := mem_expanded_iff hDone
  have hSound := b.traverse_sound transitive steps entries
  rw [hDone] at hSound
  have hReach := (hMembers m).mp hExpanded
  have hReached : b.Reaches transitive entries t := by
    rcases hRoot with hTransitive | hEntry
    · exact .step hTransitive hReach hFollows hLeads
    · exact .entry hEntry hLeads.2.1
  have hDescribes := describes_toGraph hSound.1 hMembers
  refine ⟨?_, ?_, fun hDiffer => ?_⟩
  · exact List.count_eq_one_of_mem hSound.1.distinct ((hMembers t).mpr hReached)
  · exact (hDescribes.nodes _).mpr ⟨t, hReached, .inl rfl⟩
  · exact (hDescribes.edges _).mpr ⟨m, hReach, draws_of_leadsTo hFollows hLeads hDiffer⟩

end Builder

/-- A specifier that leads from any module to the path of a discovered one, relative to the
importing module's directory or as its name below the root, if that is text, resolves to the
identity that was discovered, whatever rewritings and base are registered. A build takes a reference
that resolves so to this identity and to the label that the module has when it is expanded; imported
or as an entry it is expanded once, and it is one node. -/
theorem discovered_module_has_one_identity (d : Disk) (root : Path) (patterns : List String)
    (declarations : Bool) (modules : ModuleSet)
    (hDiscover : ModuleSet.discover d root patterns declarations = .ok modules)
    (r : Resolver) (hRoot : r.root = (Resolver.ofRoot modules.root).root) (a b : ModuleId)
    (hb : b ∈ modules.modules) :
    (∀ dir s, a.path.parent? = some dir → isRelativeSpecifier s = true →
      (dir.join ⟨s⟩).clean = b.path → d.resolve? r a s = some b) ∧
    ((ProjectRoot.ofPath modules.root).Legible b.path →
      d.resolve? r a ("/" ++ (ProjectRoot.ofPath modules.root).normalize b.path) = some b) ∧
    ∀ (builder : Builder) (ref : Reference), builder.project = d.project r →
      d.resolve? r a ref.specifier = some b →
      (∀ id label, builder.target a ref = .ok (.module id label) ↔
        builder.LeadsTo a ref b ∧ id = b ∧ label = builder.labeler.label b.path) ∧
      ∀ transitive steps entries done, builder.traverse transitive steps entries = .done done →
        a ∈ done.expanded → builder.Follows a ref → builder.LeadsTo a ref b →
        (transitive = true ∨ b ∈ entries) →
        done.expanded.count b = 1 ∧ builder.labeler.label b.path ∈ done.draft.toGraph.nodes ∧
          (builder.labeler.label a.path ≠ builder.labeler.label b.path →
            ⟨builder.labeler.label a.path, builder.labeler.label b.path⟩ ∈
              done.draft.toGraph.edges) := by
  refine ⟨fun dir s hDir hRelative hLeads => ?_, ?_, fun builder ref hProject hResolve => ?_⟩
  · apply ModuleSet.resolve?_relative hDiscover hb hRelative
    rw [hDir]
    exact hLeads
  · exact ModuleSet.resolve?_fromRoot hDiscover hb hRoot a
  · have hResolve : builder.project.resolve? a ref.specifier = some b := by
      rw [hProject]
      exact hResolve
    exact ⟨Builder.target_eq_module_iff hResolve, fun _ _ _ _ => Builder.expanded_once⟩

section Shelf

/-- Two modules, one in a directory beside the other. -/
def shelfTree : Option FileTree := do
  let t ← FileTree.empty.put? [] "p" .directory
  let t ← t.put? ["p"] "src" .directory
  let t ← t.put? ["src", "p"] "lib" .directory
  let t ← t.put? ["src", "p"] "a.ts" (.file (.text "import './lib/../lib//b.ts';"))
  t.put? ["lib", "src", "p"] "b.ts" (.file (.text ""))

def shelf : Disk := ⟨shelfTree.getD .empty, ["p"]⟩

def shelfOuter : ModuleId := .ofText "/p/src/a.ts"

def shelfInner : ModuleId := .ofText "/p/src/lib/b.ts"

def shelfModules : ModuleSet := .ofModules ⟨"/p"⟩ [shelfInner, shelfOuter]

/-- Rewritings that would change every path if they were asked. -/
def shelfResolver : Resolver :=
  ((Resolver.ofRoot shelfModules.root).withAliases [⟨"./", "gone/"⟩, ⟨"/", "gone/"⟩]).withBase
    ⟨"gone"⟩

def shelfBuilder : Builder :=
  ⟨.ofSourceRoot (.ofPath shelfModules.root) "src/", .ofSettings [] "src/", ⟨false, false, false⟩,
    shelf.project shelfResolver⟩

/-- The filter of `**/*.ts`. -/
def scriptFilter : Glob.Filter := ⟨[⟨[.leading, .run, .char '.', .char 't', .char 's']⟩], []⟩

theorem shelf_discovered : ModuleSet.discover shelf ⟨"."⟩ ["**/*.ts"] false = .ok shelfModules := by
  have hScan : (ModuleSet.scan shelf ["p"] scriptFilter false).map ModuleId.ofPath =
      [shelfInner, shelfOuter] := by decide +kernel
  refine ModuleSet.discover_ok_iff.mpr ⟨["p"], scriptFilter, by decide +kernel, rfl, ?_⟩
  rw [hScan]
  rfl

theorem shelf_walked : ∃ done, shelfBuilder.traverse true 2 [shelfOuter] = .done done ∧
    shelfOuter ∈ done.expanded := by
  have hEnds : (shelfBuilder.build true 2 [shelfOuter]).isSome = true := by decide +kernel
  have hSound := shelfBuilder.traverse_sound true 2 [shelfOuter]
  have hInternal : shelfBuilder.Internal shelfOuter := by
    unfold Builder.Internal
    decide +kernel
  rw [Builder.build] at hEnds
  cases hWalk : shelfBuilder.traverse true 2 [shelfOuter] with
  | done t => exact ⟨t, rfl, (Builder.mem_expanded_iff hWalk _).mpr (.entry (.head _) hInternal)⟩
  | failed cause t =>
    rw [hWalk] at hSound
    obtain ⟨_, _, -, ⟨hStrict, -⟩, -⟩ := hSound
    cases hStrict
  | unfinished =>
    rw [hWalk] at hEnds
    cases hEnds

theorem shelf_names_one_module :
    shelf.resolve? shelfResolver shelfOuter "/src/lib/b.ts" = some shelfInner ∧
      ∃ done, shelfBuilder.traverse true 2 [shelfOuter] = .done done ∧
        done.expanded.count shelfInner = 1 ∧ ⟨"a", "lib/b"⟩ ∈ done.draft.toGraph.edges := by
  have hMem : shelfInner ∈ shelfModules.modules := by
    rw [shelfModules, ModuleSet.ofModules, mem_sortedDistinct]
    exact .head _
  obtain ⟨hRelative, hFromRoot, hBuild⟩ := discovered_module_has_one_identity shelf ⟨"."⟩
    ["**/*.ts"] false shelfModules shelf_discovered shelfResolver (by simp [shelfResolver])
    shelfOuter shelfInner hMem
  have hName : (ProjectRoot.ofPath shelfModules.root).normalize shelfInner.path = "src/lib/b.ts" := by
    decide +kernel
  have hFromRoot := hFromRoot (by decide +kernel)
  rw [hName] at hFromRoot
  have hResolve := hRelative ⟨"/p/src"⟩ "./lib/../lib//b.ts" (by decide +kernel) (by decide +kernel)
    (by decide +kernel)
  obtain ⟨-, hOnce⟩ := hBuild shelfBuilder ⟨"./lib/../lib//b.ts", .static, false⟩ rfl hResolve
  obtain ⟨done, hDone, hExpanded⟩ := shelf_walked
  have hFollows : shelfBuilder.Follows shelfOuter ⟨"./lib/../lib//b.ts", .static, false⟩ :=
    ⟨[⟨"./lib/../lib//b.ts", .static, false⟩], by decide +kernel, .head _, by decide⟩
  have hLeads :
      shelfBuilder.LeadsTo shelfOuter ⟨"./lib/../lib//b.ts", .static, false⟩ shelfInner := by
    refine ⟨hResolve, ?_, by decide +kernel⟩
    unfold Builder.Internal
    decide +kernel
  obtain ⟨hCount, -, hEdge⟩ := hOnce true 2 _ done hDone hExpanded hFollows hLeads (.inl rfl)
  have hOuter : shelfBuilder.labeler.label shelfOuter.path = "a" := by decide +kernel
  have hInner : shelfBuilder.labeler.label shelfInner.path = "lib/b" := by decide +kernel
  rw [hOuter, hInner] at hEdge
  exact ⟨hFromRoot, done, hDone, hCount, hEdge (by decide)⟩

end Shelf

section Stray

/-- A module whose name is not text. -/
def strayShelfTree : Option FileTree := do
  let t ← FileTree.empty.put? [] "p" .directory
  t.put? ["p"] "\x00\u00FF.ts" (.file (.text ""))

def strayShelf : Disk := ⟨strayShelfTree.getD .empty, ["p"]⟩

def strayModule : ModuleId := .ofText "/p/\x00\u00FF.ts"

def strayModules : ModuleSet := .ofModules ⟨"/p"⟩ [strayModule]

/-- What is shown of a stray module does not lead to it. -/
theorem stray_module_is_not_found :
    ModuleSet.discover strayShelf ⟨"."⟩ ["**/*.ts"] false = .ok strayModules ∧
      strayModule ∈ strayModules.modules ∧
      strayShelf.resolve? (.ofRoot strayModules.root) strayModule
        ("/" ++ (ProjectRoot.ofPath strayModules.root).normalize strayModule.path) = none := by
  have hScan : (ModuleSet.scan strayShelf ["p"] scriptFilter false).map ModuleId.ofPath =
      [strayModule] := by decide +kernel
  refine ⟨ModuleSet.discover_ok_iff.mpr ⟨["p"], scriptFilter, by decide +kernel, rfl, ?_⟩, ?_,
    by decide +kernel⟩
  · rw [hScan]
    rfl
  · rw [strayModules, ModuleSet.ofModules, mem_sortedDistinct]
    exact .head _

end Stray

end ModuleAtlas
