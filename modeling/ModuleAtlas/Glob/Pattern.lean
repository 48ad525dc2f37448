/-!
# Glob patterns

A pattern is a list of pieces. Characters stand for their bytes in UTF-8, and wildcards and classes
match single bytes: a class with a character of several bytes matches each of these bytes.

Assumed of the pattern language: `?` and `*` do not match slashes but classes do, groups may be
nested, a backslash takes the meaning off the next character, letter case counts, and no pattern is
too large.
-/

namespace ModuleAtlas.Glob

inductive Piece where
  | char (c : Char)
  | anyByte
  | run
  /-- A leading `**` component: nothing, or directories with the slash after them. -/
  | leading
  /-- A trailing `**` component: a slash and whatever follows. -/
  | trailing
  /-- An inner `**` component: a slash, or directories between slashes. -/
  | inner
  /-- `[..]`: one byte, slash included, that lies in one of the ranges, or in none if negated. -/
  | oneOf (negated : Bool) (ranges : List (Char × Char))
  /-- `{..,..}`: one of the branches; a group without branches is nothing. -/
  | either (branches : List (List Piece))
deriving Inhabited

def Piece.isVoid : Piece → Bool
  | .either [] => true
  | _ => false

inductive Fault where
  | unclosedClass
  | invalidRange (first last : Char)
  | unclosedGroup
  | unopenedGroup
  | danglingEscape
deriving DecidableEq

def Fault.message : Fault → String
  | unclosedClass => "unclosed character class; missing ']'"
  | invalidRange first last =>
    "invalid range; '" ++ first.toString ++ "' > '" ++ last.toString ++ "'"
  | unclosedGroup =>
    "unclosed alternate group; missing '\x7d' (maybe escape '\x7b' with '[\x7b]'?)"
  | unopenedGroup =>
    "unopened alternate group; missing '\x7b' (maybe escape '\x7d' with '[\x7d]'?)"
  | danglingEscape => "dangling '\\'"

structure Pattern where
  pieces : List Piece
deriving Inhabited

end ModuleAtlas.Glob
