import ModuleAtlas.Config.Basic
import ModuleAtlas.Json.Value

/-!
# The data model in JSON

Each type of the data model has a writer and a reader. The reader takes back what the writer gives,
and besides the other shapes that JSON records and cases may have. JSON holds text only, so a path
that is not text cannot be written.
-/

namespace ModuleAtlas

open Json Json.Value

namespace ReferenceKind

def name : ReferenceKind → String
  | static => "Static"
  | reExport => "ReExport"
  | dynamic => "Dynamic"

def ofName? : String → Option ReferenceKind
  | "Static" => some static
  | "ReExport" => some reExport
  | "Dynamic" => some dynamic
  | _ => none

def toJson (k : ReferenceKind) : Value := string k.name

def ofJson? (v : Value) : Option ReferenceKind := v.case?.bind ofName?

end ReferenceKind

namespace Reference

def toJson (r : Reference) : Value :=
  object [("specifier", string r.specifier), ("kind", r.kind.toJson), ("type_only", bool r.typeOnly)]

def fieldNames : List String := ["specifier", "kind", "type_only"]

def ofJson? (v : Value) : Option Reference :=
  match v.record? fieldNames with
  | some [specifier, kind, typeOnly] => do
    let specifier ← required? string? specifier
    let kind ← required? ReferenceKind.ofJson? kind
    let typeOnly ← orElse? bool? false typeOnly
    return ⟨specifier, kind, typeOnly⟩
  | _ => none

end Reference

namespace Path

def toJson? (p : Path) : Option Value := if Text.isText p.text then some (string p.text) else none

/-- The text is taken as it is; none of it may be read as a stray byte. -/
def ofJson? (v : Value) : Option Path := (v.string?.filter Text.isText).map Path.mk

end Path

namespace ModuleId

def toJson? (m : ModuleId) : Option Value := m.path.toJson?

/-- The path is taken as it is written. -/
def ofJson? (v : Value) : Option ModuleId := (Path.ofJson? v).map ModuleId.mk

end ModuleId

namespace Edge

def toJson (e : Edge) : Value := object [("from", string e.source), ("to", string e.target)]

def fieldNames : List String := ["from", "to"]

def ofJson? (v : Value) : Option Edge :=
  match v.record? fieldNames with
  | some [source, target] => do
    let source ← required? string? source
    let target ← required? string? target
    return ⟨source, target⟩
  | _ => none

end Edge

namespace Graph

def toJson (g : Graph) : Value :=
  object [("nodes", strings g.nodes), ("edges", array (g.edges.map Edge.toJson))]

def fieldNames : List String := ["nodes", "edges"]

/-- The parts are taken as they are written, in normal form or not. -/
def ofJson? (v : Value) : Option Graph :=
  match v.record? fieldNames with
  | some [nodes, edges] => do
    let nodes ← required? (list? string?) nodes
    let edges ← required? (list? Edge.ofJson?) edges
    return ⟨nodes, edges⟩
  | _ => none

end Graph

namespace Mode

def name : Mode → String
  | project => "project"
  | entries => "entries"

def ofName? : String → Option Mode
  | "project" => some project
  | "entries" => some entries
  | _ => none

def toJson (m : Mode) : Value := string m.name

def ofJson? (v : Value) : Option Mode := v.case?.bind ofName?

end Mode

namespace Fence

def name : Fence → String
  | bare => "none"
  | markdown => "markdown"

def ofName? : String → Option Fence
  | "none" => some bare
  | "markdown" => some markdown
  | _ => none

def toJson (f : Fence) : Value := string f.name

def ofJson? (v : Value) : Option Fence := v.case?.bind ofName?

end Fence

namespace Config

/-- The names of the settings, in order. -/
def fieldNames : List String :=
  ["root", "mode", "scan_globs", "entry_globs", "scope_prefixes", "source_root",
    "include_external", "include_declaration_only_modules", "include_type_only_imports",
    "transitive", "strict", "aliases", "use_tsconfig", "output", "fence"]

def fieldValues? (c : Config) : Option (List Value) := do
  let root ← c.root.toJson?
  let output ← c.output?.elim (some null) Path.toJson?
  return [root, ofOption Mode.toJson c.mode?, strings c.scanGlobs, strings c.entryGlobs,
    strings c.scopePrefixes, string c.sourceRoot, bool c.includeExternal,
    bool c.includeDeclarations, bool c.includeTypeOnly, ofOption bool c.transitive?, bool c.strict,
    object (c.aliases.entries.map fun e => (e.1, string e.2)), bool c.useTsconfig, output,
    c.fence.toJson]

def toJson? (c : Config) : Option Value :=
  c.fieldValues?.map fun values => object (fieldNames.zip values)

/-- The aliases in an object; the last entry for a key counts. -/
def aliasesOfJson? : Value → Option (Dictionary String)
  | object fields =>
    (fields.mapM fun e => (string? e.2).map fun s => (e.1, s)).map Dictionary.ofList
  | _ => none

/-- Every setting may be absent, but no other field is accepted. -/
def ofJson? (v : Value) : Option Config :=
  if hasUnknownField v then none else
  match v.record? fieldNames with
  | some [root, mode, scanGlobs, entryGlobs, scopePrefixes, sourceRoot, includeExternal,
      includeDeclarations, includeTypeOnly, transitive, strict, aliases, useTsconfig, output,
      fence] => do
    let c : Config := {}
    return {
      root := ← orElse? Path.ofJson? c.root root
      mode? := ← orElse? (optional? Mode.ofJson?) c.mode? mode
      scanGlobs := ← orElse? (list? string?) c.scanGlobs scanGlobs
      entryGlobs := ← orElse? (list? string?) c.entryGlobs entryGlobs
      scopePrefixes := ← orElse? (list? string?) c.scopePrefixes scopePrefixes
      sourceRoot := ← orElse? string? c.sourceRoot sourceRoot
      includeExternal := ← orElse? bool? c.includeExternal includeExternal
      includeDeclarations := ← orElse? bool? c.includeDeclarations includeDeclarations
      includeTypeOnly := ← orElse? bool? c.includeTypeOnly includeTypeOnly
      transitive? := ← orElse? (optional? bool?) c.transitive? transitive
      strict := ← orElse? bool? c.strict strict
      aliases := ← orElse? aliasesOfJson? c.aliases aliases
      useTsconfig := ← orElse? bool? c.useTsconfig useTsconfig
      output? := ← orElse? (optional? Path.ofJson?) c.output? output
      fence := ← orElse? Fence.ofJson? c.fence fence }
  | _ => none
where
  hasUnknownField : Value → Bool
    | object fields => fields.any fun e => ! fieldNames.contains e.1
    | _ => false

end Config

end ModuleAtlas
