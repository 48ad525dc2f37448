import ModuleAtlas.Path.Basic

/-!
# Slugs

A slug names the output file of an entry module. A module below `app/` is named by its directory,
one below `pages/` without its script extension, any other by its whole path below the source root.
-/

namespace ModuleAtlas.Slug

def scriptExtensions : List String := [".tsx", ".ts", ".jsx", ".js"]

def dropScriptExtension (s : String) : String :=
  (scriptExtensions.findSome? (Text.before? · s)).getD s

/-- Characters that a file name keeps; the slash is spelled out afterwards. -/
def isPlain (c : Char) : Bool :=
  (c.isAlphanum || c == '_' || c == '.' || c == '/' || c == '-' || c == '[' || c == ']')

/-- A slash becomes two underscores, an unusual character one. -/
def spell (c : Char) : List Char :=
  if c = '/' then ['_', '_'] else if isPlain c then [c] else ['_']

def base (relative sourceRoot : String) : String :=
  match Text.after? sourceRoot relative with
  | none => relative
  | some inner =>
    if Text.startsWith inner "app/" then
      match (Path.mk inner).parent? with
      | some directory =>
        String.ofList (directory.text.toList.map fun c => if c = '\\' then '/' else c)
      | none => ""
    else if Text.startsWith inner "pages/" then dropScriptExtension inner
    else inner

def ofEntry (relative sourceRoot : String) : String :=
  String.ofList ((base relative sourceRoot).toList.flatMap spell)

end ModuleAtlas.Slug
