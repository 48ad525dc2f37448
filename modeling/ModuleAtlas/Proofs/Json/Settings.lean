import ModuleAtlas.Json.Data
import ModuleAtlas.Proofs.Json.Records

/-!
# Settings in JSON

A configuration in JSON is the list of its settings, each under its name. Reading an object sets
what the object names and leaves the rest as it is by default; an object with any other name is no
configuration, and neither is one that gives a setting twice.
-/

namespace ModuleAtlas

open Json Json.Value

/-! ## The forms of values in settings -/

/-- A path is read from nothing but what is written for it. -/
theorem Path.ofJson?_eq_some_iff {v : Value} {p : Path} :
    ofJson? v = some p ↔ v = string p.text ∧ Text.isText p.text = true := by
  constructor
  · intro h
    obtain ⟨s, hText, rfl⟩ := Option.map_eq_some_iff.mp h
    obtain ⟨hString, hIsText⟩ := Option.filter_eq_some_iff.mp hText
    exact ⟨string?_eq_some_iff.mp hString, hIsText⟩
  · rintro ⟨rfl, hText⟩
    rw [ofJson?, string?, Option.filter_some_pos hText]
    rfl

theorem Mode.ofName?_eq_some_iff (s : String) (m : Mode) : ofName? s = some m ↔ s = m.name := by
  constructor
  · intro h
    rw [ofName?.eq_def] at h
    split at h <;> cases h <;> rfl
  · rintro rfl
    cases m <;> rfl

theorem Fence.ofName?_eq_some_iff (s : String) (f : Fence) : ofName? s = some f ↔ s = f.name := by
  constructor
  · intro h
    rw [ofName?.eq_def] at h
    split at h <;> cases h <;> rfl
  · rintro rfl
    cases f <;> rfl

theorem Mode.ofJson?_toJson (m : Mode) : ofJson? m.toJson = some m :=
  (ofName?_eq_some_iff _ m).mpr rfl

theorem Fence.ofJson?_toJson (f : Fence) : ofJson? f.toJson = some f :=
  (ofName?_eq_some_iff _ f).mpr rfl

namespace Config

def aliasesToJson (aliases : Dictionary String) : Value :=
  object (aliases.entries.map fun e => (e.1, string e.2))

/-- A setting: its name, its place in the configuration, and its form in JSON. -/
structure Setting where
  name : String
  Kind : Type
  get : Config → Kind
  write? : Kind → Option Value
  read : Value → Option Kind

namespace Setting

/-- A setting whose values can all be written. -/
def plain {α : Type} (name : String) (get : Config → α) (write : α → Value)
    (read : Value → Option α) : Setting :=
  ⟨name, α, get, fun x => some (write x), read⟩

def flag (name : String) (get : Config → Bool) : Setting := plain name get bool bool?

def texts (name : String) (get : Config → List String) : Setting :=
  plain name get strings (list? string?)

def optional {α : Type} (name : String) (get : Config → Option α) (write : α → Value)
    (read : Value → Option α) : Setting :=
  plain name get (ofOption write) (optional? read)

/-- What is written for a value is read as that value. -/
def Exact (s : Setting) : Prop := ∀ x v, s.write? x = some v → s.read v = some x

theorem Exact.plain {α : Type} {name : String} {get : Config → α} {write : α → Value}
    {read : Value → Option α} (h : ∀ x, read (write x) = some x) :
    (plain name get write read).Exact := by
  rintro x _ ⟨⟩
  exact h x

theorem Exact.flag (name : String) (get : Config → Bool) : (flag name get).Exact :=
  .plain fun _ => rfl

theorem Exact.texts (name : String) (get : Config → List String) : (texts name get).Exact :=
  .plain list?_strings

theorem Exact.optional {α : Type} {name : String} {get : Config → Option α} {write : α → Value}
    {read : Value → Option α} (h : ∀ x, read (write x) = some x) (hNull : ∀ x, write x ≠ null) :
    (optional name get write read).Exact := .plain (optional?_ofOption h hNull)

/-- The setting has the value that a field gives, or its default in the absence of a field. -/
def Takes (s : Setting) (field? : Option Value) (x : s.Kind) : Prop :=
  orElse? s.read (s.get {}) field? = some x

def field? (c : Config) (s : Setting) : Option (String × Value) :=
  (s.write? (s.get c)).map (s.name, ·)

end Setting

/-- The settings, in the order of their names. -/
def settings : List Setting :=
  [⟨"root", Path, root, Path.toJson?, Path.ofJson?⟩,
    .optional "mode" mode? Mode.toJson Mode.ofJson?,
    .texts "scan_globs" scanGlobs,
    .texts "entry_globs" entryGlobs,
    .texts "scope_prefixes" scopePrefixes,
    .plain "source_root" sourceRoot string string?,
    .flag "include_external" includeExternal,
    .flag "include_declaration_only_modules" includeDeclarations,
    .flag "include_type_only_imports" includeTypeOnly,
    .optional "transitive" transitive? bool bool?,
    .flag "strict" strict,
    .plain "aliases" aliases aliasesToJson aliasesOfJson?,
    .flag "use_tsconfig" useTsconfig,
    ⟨"output", Option Path, output?, fun p? => p?.elim (some null) Path.toJson?,
      optional? Path.ofJson?⟩,
    .plain "fence" fence Fence.toJson Fence.ofJson?]

theorem ofJson?_known {fields : List (String × Value)} (h : ∀ e ∈ fields, e.1 ∈ fieldNames) :
    ¬ ofJson?.hasUnknownField (object fields) = true := by
  simpa [ofJson?.hasUnknownField] using h

/-- Each setting is read on its own. -/
theorem ofJson?_eq_some_iff {fields : List (String × Value)}
    (hKnown : ∀ e ∈ fields, e.1 ∈ fieldNames) (hDistinct : (fields.map Prod.fst).Nodup)
    (c : Config) : ofJson? (object fields) = some c ↔
      ∀ s ∈ settings, s.Takes (fields.lookup s.name) (s.get c) := by
  rw [ofJson?, if_neg (ofJson?_known hKnown), record?_once (hDistinct.filter _)]
  simp only [settings, List.forall_mem_cons]
  constructor
  -- each field is read before the next
  · intro hRead
    obtain ⟨_, h₁, hRead⟩ := Option.bind_eq_some_iff.mp hRead
    obtain ⟨_, h₂, hRead⟩ := Option.bind_eq_some_iff.mp hRead
    obtain ⟨_, h₃, hRead⟩ := Option.bind_eq_some_iff.mp hRead
    obtain ⟨_, h₄, hRead⟩ := Option.bind_eq_some_iff.mp hRead
    obtain ⟨_, h₅, hRead⟩ := Option.bind_eq_some_iff.mp hRead
    obtain ⟨_, h₆, hRead⟩ := Option.bind_eq_some_iff.mp hRead
    obtain ⟨_, h₇, hRead⟩ := Option.bind_eq_some_iff.mp hRead
    obtain ⟨_, h₈, hRead⟩ := Option.bind_eq_some_iff.mp hRead
    obtain ⟨_, h₉, hRead⟩ := Option.bind_eq_some_iff.mp hRead
    obtain ⟨_, h₁₀, hRead⟩ := Option.bind_eq_some_iff.mp hRead
    obtain ⟨_, h₁₁, hRead⟩ := Option.bind_eq_some_iff.mp hRead
    obtain ⟨_, h₁₂, hRead⟩ := Option.bind_eq_some_iff.mp hRead
    obtain ⟨_, h₁₃, hRead⟩ := Option.bind_eq_some_iff.mp hRead
    obtain ⟨_, h₁₄, hRead⟩ := Option.bind_eq_some_iff.mp hRead
    obtain ⟨_, h₁₅, hRead⟩ := Option.bind_eq_some_iff.mp hRead
    obtain rfl := Option.some.inj hRead
    exact ⟨h₁, h₂, h₃, h₄, h₅, h₆, h₇, h₈, h₉, h₁₀, h₁₁, h₁₂, h₁₃, h₁₄, h₁₅, nofun⟩
  · rintro ⟨h₁, h₂, h₃, h₄, h₅, h₆, h₇, h₈, h₉, h₁₀, h₁₁, h₁₂, h₁₃, h₁₄, h₁₅, -⟩
    simp only [Setting.Takes, Setting.plain, Setting.flag, Setting.texts, Setting.optional] at *
    simp only [fieldNames, List.map_cons, List.map_nil, h₁, h₂, h₃, h₄, h₅, h₆, h₇, h₈, h₉,
      h₁₀, h₁₁, h₁₂, h₁₃, h₁₄, h₁₅]
    rfl

/-- The name is that of a setting, and the value has the type of the setting. -/
def Fits (name : String) (v : Value) : Prop := ∃ s ∈ settings, s.name = name ∧ ∃ x, s.read v = some x

end Config

end ModuleAtlas
