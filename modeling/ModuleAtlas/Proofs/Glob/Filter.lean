import ModuleAtlas.Glob.Filter
import ModuleAtlas.Proofs.Text

/-!
# What a list of patterns selects

A list of patterns is read text by text, and whatever it selects depends on its members alone: a
path is selected when an including text matches it and no excluding one does. Reading fails exactly
when some text is no pattern, and then it names the first such text.
-/

namespace ModuleAtlas.Glob

/-- A text whose pattern takes away what it matches. -/
def Excluding (text : String) : Prop := Text.startsWith text "!" = true

instance (text : String) : Decidable (Excluding text) :=
  inferInstanceAs (Decidable (_ = true))

/-- What is left of a text without its exclamation mark. -/
def globOf (text : String) : String := (Text.after? "!" text).getD text

def Valid (patterns : List String) : Prop :=
  ∀ text ∈ patterns, ∃ pattern, Pattern.ofText (globOf text) = .ok pattern

/-- The first text of a list that is no pattern, and what is wrong with it. -/
def FirstInvalid (patterns : List String) (cause : InvalidPattern) : Prop :=
  ∃ front bad back, patterns = front ++ bad :: back ∧ Valid front ∧ cause.text = globOf bad ∧
    Pattern.ofText cause.text = .error cause.fault

def Matches (text path : String) : Prop :=
  ∃ pattern, Pattern.ofText (globOf text) = .ok pattern ∧ pattern.matchesPath path = true

def Selects (patterns : List String) (path : String) : Prop :=
  (∃ text ∈ patterns, ¬ Excluding text ∧ Matches text path) ∧
    ∀ text ∈ patterns, Excluding text → ¬ Matches text path

/-- A list that holds all patterns of another one, and besides these only such of a kind. -/
structure Extends (kind : String → Prop) (patterns longer : List String) : Prop where
  keeps : ∀ text ∈ patterns, text ∈ longer
  adds : ∀ text ∈ longer, text ∈ patterns ∨ kind text

variable {patterns patterns' longer : List String} {path : String}

/-! ## Selecting -/

theorem Extends.valid {kind : String → Prop} (h : Extends kind patterns longer)
    (hValid : Valid longer) : Valid patterns :=
  fun text hMem => hValid text (h.keeps text hMem)

theorem valid_cons_iff {text : String} : Valid (text :: patterns) ↔
    (∃ pattern, Pattern.ofText (globOf text) = .ok pattern) ∧ Valid patterns :=
  List.forall_mem_cons

theorem FirstInvalid.cons {cause : InvalidPattern} {text : String} {pattern : Pattern}
    (hRead : Pattern.ofText (globOf text) = .ok pattern) (h : FirstInvalid patterns cause) :
    FirstInvalid (text :: patterns) cause := by
  obtain ⟨front, bad, back, rfl, hFront, hBad⟩ := h
  exact ⟨text :: front, bad, back, rfl, valid_cons_iff.mpr ⟨⟨pattern, hRead⟩, hFront⟩, hBad⟩

namespace Filter

/-- The patterns that the texts of a kind read as. -/
def Holds (kind : String → Prop) (patterns : List String) (side : List Pattern) : Prop :=
  ∀ pattern, pattern ∈ side ↔
    ∃ text ∈ patterns, kind text ∧ Pattern.ofText (globOf text) = .ok pattern

section Holds

variable {kind : String → Prop} {side : List Pattern} (h : Holds kind patterns side)

include h

theorem Holds.cons {text : String} {pattern : Pattern} (hKind : kind text)
    (hRead : Pattern.ofText (globOf text) = .ok pattern) :
    Holds kind (text :: patterns) (pattern :: side) := by
  intro other
  have hSame : Pattern.ofText (globOf text) = .ok other ↔ other = pattern := by
    rw [hRead, Except.ok.injEq, eq_comm]
  simp [h other, hKind, hSame]

theorem Holds.skip {text : String} (hKind : ¬ kind text) : Holds kind (text :: patterns) side := by
  intro other
  simp [h other, hKind]

end Holds

/-- A filter that holds what the texts of a list read as, each on its side. -/
structure Reads (patterns : List String) (f : Filter) : Prop where
  includes : Holds (¬ Excluding ·) patterns f.includes
  excludes : Holds Excluding patterns f.excludes

end Filter

end ModuleAtlas.Glob
