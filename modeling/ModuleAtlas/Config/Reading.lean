import ModuleAtlas.Config.Basic
import ModuleAtlas.Json.Data
import ModuleAtlas.Toml.Document

/-!
# Configuration files

A configuration file is a TOML document whose keys are settings. Each setting may be left out, but
no other key is accepted.
-/

namespace ModuleAtlas.Config

open Toml

def stringOf? : Value → Option String
  | .string s => some s
  | _ => none

def boolOf? : Value → Option Bool
  | .bool b => some b
  | _ => none

def pathOf? (v : Value) : Option Path := (stringOf? v).map Path.mk

def stringsOf? : Value → Option (List String)
  | .array items => items.mapM stringOf?
  | _ => none

def aliasesOf? : Value → Option (Dictionary String)
  | .table _ entries =>
    (entries.mapM fun e => (stringOf? e.2).map fun s => (e.1, s)).map Dictionary.ofList
  | _ => none

/-- The name of a case: a text, or the only key of a table, under which nothing is kept. -/
def caseOf? : Value → Option String
  | .string s => some s
  | .table _ [(name, .table _ [])] | .table _ [(name, .array [])] => some name
  | _ => none

def modeOf? (v : Value) : Option Mode := (caseOf? v).bind Mode.ofName?

def fenceOf? (v : Value) : Option Fence := (caseOf? v).bind Fence.ofName?

def set? (c : Config) (key : String) (v : Value) : Option Config :=
  match key with
  | "root" => (pathOf? v).map fun x => { c with root := x }
  | "mode" => (modeOf? v).map fun x => { c with mode? := some x }
  | "scan_globs" => (stringsOf? v).map fun x => { c with scanGlobs := x }
  | "entry_globs" => (stringsOf? v).map fun x => { c with entryGlobs := x }
  | "scope_prefixes" => (stringsOf? v).map fun x => { c with scopePrefixes := x }
  | "source_root" => (stringOf? v).map fun x => { c with sourceRoot := x }
  | "include_external" => (boolOf? v).map fun x => { c with includeExternal := x }
  | "include_declaration_only_modules" =>
    (boolOf? v).map fun x => { c with includeDeclarations := x }
  | "include_type_only_imports" => (boolOf? v).map fun x => { c with includeTypeOnly := x }
  | "transitive" => (boolOf? v).map fun x => { c with transitive? := some x }
  | "strict" => (boolOf? v).map fun x => { c with strict := x }
  | "aliases" => (aliasesOf? v).map fun x => { c with aliases := x }
  | "use_tsconfig" => (boolOf? v).map fun x => { c with useTsconfig := x }
  | "output" => (pathOf? v).map fun x => { c with output? := some x }
  | "fence" => (fenceOf? v).map fun x => { c with fence := x }
  | _ => none

def ofText? (text : String) : Option Config :=
  (Toml.ofText? text.toList).bind fun entries => entries.foldlM (fun c e => c.set? e.1 e.2) {}

end ModuleAtlas.Config
