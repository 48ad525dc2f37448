import ModuleAtlas.Glob.Matching
import ModuleAtlas.Glob.Reading
import ModuleAtlas.Text

/-!
# Ignore rules

A line of an ignore file is a glob pattern with marks around it: a leading exclamation mark allows
what the pattern matches, a final slash keeps the rule to directories, and a slash at the start or
inside ties the pattern to the directory of the file. Of the rules that match, the last one decides.
-/

namespace ModuleAtlas.Ignore

inductive Verdict where
  | ignored
  | allowed
deriving DecidableEq

structure Rule where
  verdict : Verdict
  directoriesOnly : Bool
  pattern : Glob.Pattern

namespace Rule

def trimmed (line : List Char) : List Char :=
  if (Text.chopBack? ['\\', ' '] line).isSome then line
  else (line.reverse.dropWhile Text.isBlank).reverse

def withoutFinalSlash (pattern : List Char) : List Char × Bool :=
  match Text.chopBack? ['/'] pattern with
  | some inner => ((Text.chopBack? ['\\'] inner).getD inner, true)
  | none => (pattern, false)

/-- The pattern as a glob over paths below the directory of the file: one without slashes matches
at any depth, and a final `**` component matches what lies below, not the directory itself. -/
def globOf (tied : Bool) (pattern : List Char) : List Char :=
  let deep := tied || pattern.contains '/' || pattern == ['*', '*']
  let glob := if deep then pattern else '*' :: '*' :: '/' :: pattern
  if (Text.chopBack? ['/', '*', '*'] glob).isSome then glob ++ ['/', '*'] else glob

def ofPattern? (verdict : Verdict) (tied : Bool) (pattern : List Char) : Option Rule :=
  let (pattern, directoriesOnly) := withoutFinalSlash pattern
  (Glob.Pattern.ofTextWith .lenient (String.ofList (globOf tied pattern))).toOption.map
    (⟨verdict, directoriesOnly, ·⟩)

def ofTied? (verdict : Verdict) : List Char → Option Rule
  | '/' :: pattern => ofPattern? verdict true pattern
  | pattern => ofPattern? verdict false pattern

/-- The rule of a line. Comments, blank lines and lines that are no pattern have none. A backslash
takes their meaning from an exclamation mark or a number sign in front. -/
def ofLine? (line : String) : Option Rule :=
  match line.toList with
  | '#' :: _ => none
  | line =>
    match trimmed line with
    | [] => none
    | '\\' :: '!' :: pattern => ofPattern? .ignored false ('!' :: pattern)
    | '\\' :: '#' :: pattern => ofPattern? .ignored false ('#' :: pattern)
    | '!' :: pattern => ofTied? .allowed pattern
    | pattern => ofTied? .ignored pattern

def applies (r : Rule) (isDirectory : Bool) (path : String) : Bool :=
  (! r.directoriesOnly || isDirectory) && r.pattern.matchesPath path

end Rule

/-- Byte order marks at the start of a file are no part of its first line. -/
def withoutMark (line : String) : String :=
  String.ofList (line.toList.dropWhile (· == '\uFEFF'))

def rulesOf : List String → List Rule
  | [] => []
  | first :: rest => (withoutMark first :: rest).filterMap Rule.ofLine?

def verdict? (rules : List Rule) (isDirectory : Bool) (path : String) : Option Verdict :=
  (rules.reverse.find? (·.applies isDirectory path)).map Rule.verdict

end ModuleAtlas.Ignore
