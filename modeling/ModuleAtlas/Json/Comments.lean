import ModuleAtlas.Text

/-!
# JSON with comments

Settings files are often JSON with comments and with a comma behind the last element. Both are taken
out before the text is read; what stands inside strings stays as it is.
-/

namespace ModuleAtlas.Json

namespace Comments

inductive Place where
  | code
  | string
  | escaped
  | lineComment
  | blockComment (afterStar : Bool)
deriving DecidableEq

/-- Takes back a comma that only blank text follows. The text is given last character first. -/
def dropComma (out : List Char) : List Char :=
  match out.dropWhile Text.isBlank with
  | ',' :: before => before
  | _ => out

/-- Copies a text without comments and last commas, behind the text that was copied before. -/
def copy : Place → List Char → List Char → List Char
  | _, out, [] => out.reverse
  | .code, out, '/' :: '/' :: rest => copy .lineComment out rest
  | .code, out, '/' :: '*' :: rest => copy (.blockComment false) out rest
  | .code, out, c :: rest =>
    if c = '"' then copy .string (c :: out) rest
    else if c = ']' ∨ c = '\x7d' then copy .code (c :: dropComma out) rest
    else copy .code (c :: out) rest
  | .string, out, c :: rest =>
    copy (if c = '\\' then .escaped else if c = '"' then .code else .string) (c :: out) rest
  | .escaped, out, c :: rest => copy .string (c :: out) rest
  | .lineComment, out, c :: rest =>
    if c = '\n' then copy .code (c :: out) rest else copy .lineComment out rest
  | .blockComment afterStar, out, c :: rest =>
    if afterStar ∧ c = '/' then copy .code out rest
    else copy (.blockComment (c = '*')) out rest

end Comments

def withoutComments (text : List Char) : List Char := Comments.copy .code [] text

end ModuleAtlas.Json
