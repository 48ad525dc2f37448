import ModuleAtlas.Glob.Matching
import ModuleAtlas.Glob.Reading
import ModuleAtlas.Text

/-!
# Glob filters

A filter is a list of patterns, of which those that start with an exclamation mark exclude. A path
passes when an including pattern matches it and no excluding one does, so a list without including
patterns passes nothing.
-/

namespace ModuleAtlas.Glob

/-- A pattern text, without its exclamation mark, that cannot be read. -/
structure InvalidPattern where
  text : String
  fault : Fault
deriving DecidableEq

namespace InvalidPattern

def causeMessage (e : InvalidPattern) : String :=
  "error parsing glob '" ++ e.text ++ "': " ++ e.fault.message

def message (e : InvalidPattern) : String :=
  "invalid glob pattern `" ++ e.text ++ "`: " ++ e.causeMessage

end InvalidPattern

structure Filter where
  includes : List Pattern
  excludes : List Pattern

namespace Filter

def compile (text : String) : Except InvalidPattern Pattern :=
  (Pattern.ofText text).mapError (⟨text, ·⟩)

/-- Reads patterns from left to right; the first invalid one is reported. -/
def ofPatterns : List String → Except InvalidPattern Filter
  | [] => .ok ⟨[], []⟩
  | text :: rest =>
    match Text.after? "!" text with
    | some negated => do
      let pattern ← compile negated
      let filter ← ofPatterns rest
      return { filter with excludes := pattern :: filter.excludes }
    | none => do
      let pattern ← compile text
      let filter ← ofPatterns rest
      return { filter with includes := pattern :: filter.includes }

def passes (f : Filter) (path : String) : Bool :=
  f.includes.any (·.matchesPath path) && ! f.excludes.any (·.matchesPath path)

end Filter

end ModuleAtlas.Glob
