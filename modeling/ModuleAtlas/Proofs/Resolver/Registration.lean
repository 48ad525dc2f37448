import Mathlib.Data.List.Induction
import ModuleAtlas.Proofs.Resolver.Aliases

/-!
# Putting a resolver together

Whatever the calls that set up a resolver, a specifier that is a path has one candidate, which they
do not touch; any other specifier is rewritten by the longest registered beginning, and only without
one the base and the vendored packages count. The resolver of a project registers the rewritings of
its path mapping below the configured ones, and a path mapping that cannot be loaded counts as none.
-/

namespace ModuleAtlas

namespace Resolver

inductive Call where
  | aliases (added : List Alias)
  | base (path : Path)

namespace Call

def added : Call → List Alias
  | aliases added => added
  | base _ => []

def base? : Call → Option Path
  | aliases _ => none
  | base path => some path

end Call

def perform (r : Resolver) : Call → Resolver
  | .aliases added => r.withAliases added
  | .base path => r.withBase path

def ofCalls (root : Path) (calls : List Call) : Resolver := calls.foldl perform (ofRoot root)

/-- All registered rewritings, in the order of their registration. -/
def registered (calls : List Call) : List Alias := calls.flatMap Call.added

/-- The base that was set last. -/
def lastBase? (calls : List Call) : Option Path := calls.reverse.findSome? Call.base?

section Calls

variable (root : Path) (calls : List Call)

theorem ofCalls_concat (c : Call) :
    ofCalls root (calls ++ [c]) = (ofCalls root calls).perform c := by
  rw [ofCalls, List.foldl_append]
  rfl

theorem registered_concat (c : Call) : registered (calls ++ [c]) = registered calls ++ c.added := by
  simp [registered]

theorem root_ofCalls : (ofCalls root calls).root = root.clean := by
  induction calls using List.reverseRecOn with
  | nil => rfl
  | append_singleton calls c ih =>
    rw [ofCalls_concat]
    cases c with
    | aliases => exact ih
    | base => exact ih

theorem base?_ofCalls :
    (ofCalls root calls).base? = (lastBase? calls).map fun base => (root.clean.join base).clean := by
  induction calls using List.reverseRecOn with
  | nil => rfl
  | append_singleton calls c ih =>
    rw [ofCalls_concat, lastBase?, List.reverse_append]
    cases c with
    | aliases => exact ih
    | base path =>
      rw [perform, withBase, root_ofCalls]
      rfl

theorem tabulates_ofCalls : Tabulates (ofCalls root calls).aliases (registered calls) := by
  induction calls using List.reverseRecOn with
  | nil => exact .nil
  | append_singleton calls c ih =>
    rw [ofCalls_concat, registered_concat]
    cases c with
    | aliases added => exact ih.register added
    | base =>
      rw [Call.added, List.append_nil]
      exact ih

theorem ofCalls_eq_of_perm {calls calls' : List Call}
    (hPerm : (registered calls).Perm (registered calls'))
    (hDistinct : ((registered calls).map Alias.front).Nodup)
    (hBase : lastBase? calls = lastBase? calls') : ofCalls root calls = ofCalls root calls' := by
  have hAliases := (tabulates_ofCalls root calls).eq_of_perm (tabulates_ofCalls root calls') hPerm
    hDistinct
  have hBases : (ofCalls root calls).base? = (ofCalls root calls').base? := by
    rw [base?_ofCalls, base?_ofCalls, hBase]
  have hRoots : (ofCalls root calls).root = (ofCalls root calls').root := by
    rw [root_ofCalls, root_ofCalls]
  cases hLeft : ofCalls root calls
  cases hRight : ofCalls root calls'
  rw [hLeft, hRight] at hAliases hBases hRoots
  exact congr (congr (congrArg mk hRoots) hAliases) hBases

end Calls

section Candidates

variable (importer : Path) {ref : Reference}

theorem exists_candidate_of_isPath (root : Path) (h : ref.isPath = true) :
    ∃ p, ∀ r : Resolver, r.root = root → r.candidates importer ref.specifier = [p] := by
  by_cases hRelative : isRelativeSpecifier ref.specifier = true
  · exact ⟨_, fun r _ => candidates_relative importer hRelative⟩
  · rw [Reference.isPath, Bool.or_eq_true, or_iff_right hRelative, Text.startsWith_iff] at h
    obtain ⟨rest, hRest⟩ := h
    rw [hRest]
    exact ⟨_, fun r hRoot => by rw [candidates_fromRoot, hRoot]⟩

theorem candidates_of_not_isPath (r : Resolver) (h : ref.isPath = false) :
    r.candidates importer ref.specifier =
      match r.aliases.findSome? (·.rewrite? ref.specifier) with
      | some rewritten => [(r.root.join ⟨rewritten⟩).clean]
      | none => (r.base?.map fun base => (base.join ⟨ref.specifier⟩).clean).toList
          ++ [((r.root.join ⟨vendorMarker⟩).join ⟨ref.specifier⟩).clean] := by
  rw [Reference.isPath, Bool.or_eq_false_iff, Text.startsWith, Option.isSome_eq_false_iff,
    Option.isNone_iff_eq_none] at h
  obtain ⟨hRelative, hRooted⟩ := h
  rw [candidates, if_neg (by simp [hRelative])]
  split
  · rename_i hSome
    rw [hRooted] at hSome
    cases hSome
  · rfl

theorem candidates_of_chosen (root : Path) {calls : List Call} (h : ref.isPath = false) {a : Alias}
    {rest : String} (hChosen : Chosen (registered calls) ref.specifier a)
    (hRest : ref.specifier = a.front ++ rest) :
    (ofCalls root calls).candidates importer ref.specifier =
      [(root.clean.join ⟨a.replacement ++ rest⟩).clean] := by
  rw [candidates_of_not_isPath importer _ h,
    (tabulates_ofCalls root calls).findSome?_of_chosen hChosen hRest, root_ofCalls]

theorem exists_chosen {calls : List Call} {s : String}
    (h : ∃ a ∈ registered calls, Text.startsWith s a.front = true) :
    ∃ a, Chosen (registered calls) s a := by
  have hTable := tabulates_ofCalls ⟨""⟩ calls
  cases hFound : (ofCalls ⟨""⟩ calls).aliases.findSome? (·.rewrite? s) with
  | none =>
    obtain ⟨a, ha, hBegins⟩ := h
    rw [hTable.findSome?_eq_none_iff.mp hFound a ha] at hBegins
    cases hBegins
  | some text =>
    obtain ⟨a, -, hChosen, -⟩ := hTable.first_match hFound
    exact ⟨a, hChosen⟩

theorem candidates_of_none (root : Path) {calls : List Call} (h : ref.isPath = false)
    (hNone : ∀ a ∈ registered calls, Text.startsWith ref.specifier a.front = false) :
    (ofCalls root calls).candidates importer ref.specifier =
      ((lastBase? calls).map fun base =>
        ((root.clean.join base).clean.join ⟨ref.specifier⟩).clean).toList
        ++ [((root.clean.join ⟨vendorMarker⟩).join ⟨ref.specifier⟩).clean] := by
  rw [candidates_of_not_isPath importer _ h,
    (tabulates_ofCalls root calls).findSome?_eq_none_iff.mpr hNone, root_ofCalls, base?_ofCalls,
    Option.map_map]
  rfl

end Candidates

/-! ## The resolver of a project -/

/-- The table of a project: the configured rewritings over those of the path mapping. -/
def projectTable (tsconfig? : Option TsConfig) (aliases : Dictionary String) : List Alias :=
  (((tsconfig?.map TsConfig.aliases).getD .empty).insertAll aliases.entries).entries.map
    fun e => ⟨e.1, e.2⟩

def projectCalls (tsconfig? : Option TsConfig) (aliases : Dictionary String) : List Call :=
  ((tsconfig?.bind TsConfig.baseUrl?).map fun url => Call.base ⟨url⟩).toList
    ++ [.aliases (projectTable tsconfig? aliases)]

section Project

variable (root : Path) (tsconfig? : Option TsConfig) (aliases : Dictionary String)

theorem ofSettings_eq :
    ofSettings root tsconfig? aliases = ofCalls root (projectCalls tsconfig? aliases) := by
  rw [ofSettings, projectCalls]
  cases tsconfig?.bind TsConfig.baseUrl? with
  | none => rfl
  | some url => rfl

theorem registered_projectCalls :
    registered (projectCalls tsconfig? aliases) = projectTable tsconfig? aliases := by
  rw [projectCalls]
  cases tsconfig?.bind TsConfig.baseUrl? with
  | none => simp [registered, Call.added]
  | some url => simp [registered, Call.added]

theorem lastBase?_projectCalls :
    lastBase? (projectCalls tsconfig? aliases) =
      (tsconfig?.bind TsConfig.baseUrl?).map Path.mk := by
  rw [projectCalls]
  cases tsconfig?.bind TsConfig.baseUrl? with
  | none => rfl
  | some url => rfl

theorem nodup_projectTable : ((projectTable tsconfig? aliases).map Alias.front).Nodup := by
  rw [projectTable, List.map_map]
  exact Dictionary.nodup_keys _

theorem mem_projectTable_iff {front replacement : String} :
    ⟨front, replacement⟩ ∈ projectTable tsconfig? aliases ↔
      aliases.get? front = some replacement ∨ aliases.get? front = none ∧
        ((tsconfig?.map TsConfig.aliases).getD .empty).get? front = some replacement := by
  rw [← Dictionary.get?_union_iff, ← Dictionary.mem_entries_iff, projectTable, List.mem_map]
  constructor
  · rintro ⟨⟨front, replacement⟩, hMem, hSame⟩
    cases hSame
    exact hMem
  · intro hMem
    exact ⟨_, hMem, rfl⟩

end Project

end Resolver

namespace Config

open Files

/-- The path mapping of a root that counts for a configuration. -/
def mapping? (c : Config) (d : Disk) (root : Path) : Option TsConfig :=
  if c.useTsconfig then (TsConfig.load d root).toOption.join else none

theorem mapping?_of_not_loaded (c : Config) {d : Disk} {root : Path}
    (h : d.isFile (root.join ⟨TsConfig.fileName⟩) = false ∨
      (∃ fault, d.read (root.join ⟨TsConfig.fileName⟩) = .error fault) ∨
      ∃ text fault, d.read (root.join ⟨TsConfig.fileName⟩) = .ok text ∧
        TsConfig.ofText text = .error fault) : c.mapping? d root = none := by
  have hLoad : (TsConfig.load d root).toOption.join = none := by
    rw [TsConfig.load]
    cases hFile : d.isFile (root.join ⟨TsConfig.fileName⟩) with
    | false => rfl
    | true =>
      rcases h with hMissing | ⟨fault, hUnreadable⟩ | ⟨text, fault, hText, hMalformed⟩
      · rw [hFile] at hMissing
        cases hMissing
      · rw [if_pos rfl, hUnreadable]
        rfl
      · rw [if_pos rfl, hText]
        dsimp only
        rw [hMalformed]
        rfl
  rw [mapping?, hLoad, ite_self]

theorem resolver_eq (c : Config) (d : Disk) (root : Path) :
    c.resolver d root = .ofSettings root (c.mapping? d root) c.aliases := rfl

end Config

namespace Resolver

open Files

/-- A path specifier has one candidate whatever is registered. Any other specifier is rewritten by
the longest registered beginning of it, the first registered of equal ones, and else has the base
and the vendored packages as candidates. So with distinct beginnings only the set of rewritings and
the base count. A project registers the rewritings of its path mapping that are not configured
otherwise, and a path mapping that is missing, unreadable or malformed counts as switched off. -/
theorem longest_registered_alias_decides (root importer : Path) (ref : Reference) :
    (ref.isPath = true →
      ∃ p, ∀ calls, (ofCalls root calls).candidates importer ref.specifier = [p]) ∧
    (ref.isPath = false → ∀ calls,
      ((∃ a ∈ registered calls, Text.startsWith ref.specifier a.front = true) →
        ∃ a, Chosen (registered calls) ref.specifier a) ∧
      (∀ a rest, Chosen (registered calls) ref.specifier a → ref.specifier = a.front ++ rest →
        (ofCalls root calls).candidates importer ref.specifier =
          [(root.clean.join ⟨a.replacement ++ rest⟩).clean]) ∧
      ((∀ a ∈ registered calls, Text.startsWith ref.specifier a.front = false) →
        (ofCalls root calls).candidates importer ref.specifier =
          ((lastBase? calls).map fun base =>
            ((root.clean.join base).clean.join ⟨ref.specifier⟩).clean).toList
            ++ [((root.clean.join ⟨vendorMarker⟩).join ⟨ref.specifier⟩).clean])) ∧
    (∀ calls calls', (registered calls).Perm (registered calls') →
      ((registered calls).map Alias.front).Nodup → lastBase? calls = lastBase? calls' →
      ofCalls root calls = ofCalls root calls') ∧
    ∀ (c : Config) (d : Disk),
      (∃ calls, c.resolver d root = ofCalls root calls ∧
        lastBase? calls = ((c.mapping? d root).bind TsConfig.baseUrl?).map Path.mk ∧
        ((registered calls).map Alias.front).Nodup ∧
        ∀ front replacement, ⟨front, replacement⟩ ∈ registered calls ↔
          c.aliases.get? front = some replacement ∨ c.aliases.get? front = none ∧
            (((c.mapping? d root).map TsConfig.aliases).getD .empty).get? front =
              some replacement) ∧
      (d.isFile (root.join ⟨TsConfig.fileName⟩) = false ∨
          (∃ fault, d.read (root.join ⟨TsConfig.fileName⟩) = .error fault) ∨
          (∃ text fault, d.read (root.join ⟨TsConfig.fileName⟩) = .ok text ∧
            TsConfig.ofText text = .error fault) →
        c.resolver d root = ({ c with useTsconfig := false } : Config).resolver d root) := by
  refine ⟨fun hPath => ?_, fun hPath calls => ⟨exists_chosen, ?_, ?_⟩, ?_, fun c d => ⟨?_, ?_⟩⟩
  · obtain ⟨p, hp⟩ := exists_candidate_of_isPath importer root.clean hPath
    exact ⟨p, fun calls => hp _ (root_ofCalls root calls)⟩
  · intro a rest hChosen hRest
    exact candidates_of_chosen importer root hPath hChosen hRest
  · exact candidates_of_none importer root hPath
  · intro calls calls' hPerm hDistinct hBase
    exact ofCalls_eq_of_perm root hPerm hDistinct hBase
  · refine ⟨projectCalls (c.mapping? d root) c.aliases, ?_, lastBase?_projectCalls _ _, ?_⟩
    · rw [Config.resolver_eq, ofSettings_eq]
    · rw [registered_projectCalls]
      exact ⟨nodup_projectTable _ _, fun _ _ => mem_projectTable_iff _ _⟩
  · intro hNotLoaded
    rw [Config.resolver_eq, c.mapping?_of_not_loaded hNotLoaded]
    rfl

section Overlapping

/-- Three beginnings of one specifier, one of them registered twice. -/
def overlappingCalls : List Call :=
  [.aliases [⟨"@/", "src/"⟩, ⟨"", "any/"⟩], .base ⟨"lib"⟩,
    .aliases [⟨"@/ui/", "src/ui/"⟩, ⟨"@/ui/", "gone/"⟩]]

theorem overlapping_aliases_decided :
    (ofCalls ⟨"/p/."⟩ overlappingCalls).candidates ⟨"/p/main.ts"⟩ "@/ui/../card" =
      [⟨"/p/src/card"⟩] ∧
    ({ aliases := .ofList [("@/", "src/")] } : Config).resolver ⟨.empty, []⟩ ⟨"/p/."⟩ =
      ({ aliases := .ofList [("@/", "src/")], useTsconfig := false } : Config).resolver ⟨.empty, []⟩
        ⟨"/p/."⟩ := by
  obtain ⟨-, hRewritten, -, hProject⟩ := longest_registered_alias_decides ⟨"/p/."⟩ ⟨"/p/main.ts"⟩
    ⟨"@/ui/../card", .static, false⟩
  have hChosen : Chosen (registered overlappingCalls) "@/ui/../card" ⟨"@/ui/", "src/ui/"⟩ :=
    ⟨by decide +kernel, by decide +kernel, by decide +kernel⟩
  obtain ⟨-, hCandidates, -⟩ := hRewritten (by decide +kernel) overlappingCalls
  obtain ⟨-, hNotLoaded⟩ := hProject { aliases := .ofList [("@/", "src/")] } ⟨.empty, []⟩
  have hClean : ((Path.mk "/p/.").clean.join ⟨"src/ui/" ++ "../card"⟩).clean = ⟨"/p/src/card"⟩ := by
    decide +kernel
  rw [← hClean]
  exact ⟨hCandidates ⟨"@/ui/", "src/ui/"⟩ "../card" hChosen (by decide +kernel),
    hNotLoaded (.inl (by decide +kernel))⟩

end Overlapping

end Resolver

end ModuleAtlas
