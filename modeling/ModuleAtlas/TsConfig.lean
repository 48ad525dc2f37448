import ModuleAtlas.Dictionary
import ModuleAtlas.Json.Comments
import ModuleAtlas.Json.Reader

/-!
# Path mapping of `tsconfig.json`

Of the compiler's settings only the base directory of bare specifiers and the wildcard entries of
the path table count. A wildcard entry rewrites the beginning of a specifier.
-/

namespace ModuleAtlas

structure TsConfig where
  baseUrl? : Option String := none
  paths : Dictionary (List String) := .empty

namespace TsConfig

def fileName : String := "tsconfig.json"

/-- The fields of the compiler options. An array of them must have the base directory. -/
def optionFields : List (Json.Reader.Field TsConfig) :=
  [⟨"baseUrl", false, fun c tokens => do
      let (url, rest) ← Json.Reader.optional Json.Reader.string tokens
      return ({ c with baseUrl? := url }, rest)⟩,
    ⟨"paths", true, fun c tokens => do
      let (paths, rest) ← Json.Reader.object (Json.Reader.list Json.Reader.string) tokens
      return ({ c with paths := .ofList paths }, rest)⟩]

def fields : List (Json.Reader.Field TsConfig) :=
  [⟨"compilerOptions", true, Json.Reader.record optionFields⟩]

/-- Reads a text that may hold comments and commas behind last elements. -/
def ofText (text : String) : Except Json.Fault TsConfig :=
  Json.Reader.whole (Json.Reader.record fields ({} : TsConfig)) (Json.withoutComments text.toList)

def withoutEndSlashes (s : String) : String :=
  String.ofList (s.toList.reverse.dropWhile (· == '/')).reverse

def base (c : TsConfig) : String := withoutEndSlashes (c.baseUrl?.getD ".")

/-- The rewriting of a table entry, by its first target. Both must be wildcards. -/
def alias? (base pattern : String) (targets : List String) : Option (String × String) :=
  match Text.before? "*" pattern, targets.head?.bind (Text.before? "*") with
  | some front, some target => some (front, base ++ "/" ++ target)
  | _, _ => none

def aliases (c : TsConfig) : Dictionary String :=
  .ofList (c.paths.entries.filterMap fun e => alias? c.base e.1 e.2)

end TsConfig

end ModuleAtlas
