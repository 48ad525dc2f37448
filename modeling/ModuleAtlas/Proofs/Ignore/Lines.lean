import ModuleAtlas.Ignore.Rule
import ModuleAtlas.Proofs.Glob.Reading

/-!
# Lines for names

A line without a slash, but for a last one, without classes and without groups gives a rule for
names.
-/

namespace ModuleAtlas.Ignore

/-- The text of a pattern that stays in a name, a last slash apart. -/
def isNameText (pattern : List Char) : Bool :=
  pattern.head? != some '/' && ((Text.chopBack? ['/'] pattern).getD pattern).all Glob.staysInName

/-- A pattern without the mark that allows. -/
def unmarked : List Char → List Char
  | '!' :: pattern => pattern
  | pattern => pattern

/-- Whether a line is a comment or asks for a name. -/
def isNameLine (line : String) : Bool :=
  line.toList.head? == some '#' || isNameText (unmarked (Rule.trimmed line.toList))

namespace Rule

theorem staysInName_withoutFinalSlash {pattern : List Char} (hText : isNameText pattern = true) :
    ∀ c ∈ (withoutFinalSlash pattern).1, Glob.staysInName c = true := by
  obtain ⟨-, hBody⟩ := Bool.and_eq_true_iff.mp hText
  rw [List.all_eq_true] at hBody
  rw [withoutFinalSlash]
  split
  · rename_i inner hInner
    rw [hInner] at hBody
    intro c hc
    cases hEscape : Text.chopBack? ['\\'] inner with
    | none =>
      rw [hEscape] at hc
      exact hBody c hc
    | some body =>
      rw [hEscape] at hc
      apply hBody c
      rw [Option.getD_some, Text.chopBack?_eq_some_iff.mp hEscape]
      exact List.mem_append_left _ hc
  · rename_i hNone
    rw [hNone] at hBody
    exact hBody

/-- Text that stays in a name is looked for at any depth. -/
theorem globOf_eq {body : List Char} (hBody : ∀ c ∈ body, Glob.staysInName c = true)
    (hStars : body ≠ ['*', '*']) : globOf false body = '*' :: '*' :: '/' :: body := by
  have hSlash : '/' ∉ body := fun h => (Glob.staysInName_iff.mp (hBody _ h)).1 rfl
  have hEnd : Text.chopBack? ['/', '*', '*'] ('*' :: '*' :: '/' :: body) = none := by
    rw [Option.eq_none_iff_forall_ne_some]
    intro rest hRest
    have hGlob := Text.chopBack?_eq_some_iff.mp hRest
    match rest with
    | [] | [_] => simp at hGlob
    | [_, _] =>
      simp only [List.cons_append, List.nil_append, List.cons.injEq, true_and] at hGlob
      exact hStars hGlob.2.2
    | _ :: _ :: _ :: rest =>
      simp only [List.cons_append, List.cons.injEq] at hGlob
      exact hSlash (by simp [hGlob.2.2.2])
  have hDeep : (false || body.contains '/' || body == ['*', '*']) = false := by
    simp [hSlash, hStars]
  rw [globOf, hDeep]
  simp [hEnd]

theorem namesOnly_ofPattern? {verdict : Verdict} {pattern : List Char} {r : Rule}
    (hText : isNameText pattern = true) (h : ofPattern? verdict false pattern = some r) :
    r.pattern.namesOnly = true := by
  have hBody := staysInName_withoutFinalSlash hText
  rw [ofPattern?] at h
  generalize withoutFinalSlash pattern = parts at h hBody
  obtain ⟨body, directoriesOnly⟩ := parts
  dsimp only at h hBody
  obtain ⟨p, hRead, rfl⟩ := Option.map_eq_some_iff.mp h
  dsimp only
  by_cases hStars : body = ['*', '*']
  · subst hStars
    cases hRead
    rfl
  · rw [globOf_eq hBody hStars] at hRead
    cases hOk : Glob.Pattern.ofTextWith .lenient (String.ofList ('*' :: '*' :: '/' :: body)) with
    | error fault =>
      rw [hOk] at hRead
      cases hRead
    | ok p' =>
      rw [hOk] at hRead
      cases hRead
      exact Glob.namesOnly_of_text hBody hOk

theorem namesOnly_ofTied? {verdict : Verdict} {pattern : List Char} {r : Rule}
    (hText : isNameText pattern = true) (h : ofTied? verdict pattern = some r) :
    r.pattern.namesOnly = true := by
  unfold ofTied? at h
  split at h
  · cases hText
  · exact namesOnly_ofPattern? hText h

theorem isNameText_tail {a b : Char} {pattern : List Char} (hNext : b ≠ '/')
    (h : isNameText (a :: b :: pattern) = true) : isNameText (b :: pattern) = true := by
  obtain ⟨-, hAll⟩ := Bool.and_eq_true_iff.mp h
  rw [isNameText, Bool.and_eq_true]
  refine ⟨by simpa using hNext, ?_⟩
  cases hBack : Text.chopBack? ['/'] (b :: pattern) with
  | some inner =>
    have hWhole : Text.chopBack? ['/'] (a :: b :: pattern) = some (a :: inner) := by
      rw [Text.chopBack?_eq_some_iff, Text.chopBack?_eq_some_iff.mp hBack]
      rfl
    rw [hWhole, Option.getD_some, List.all_cons, Bool.and_eq_true] at hAll
    exact hAll.2
  | none =>
    have hWhole : Text.chopBack? ['/'] (a :: b :: pattern) = none := by
      rw [Option.eq_none_iff_forall_ne_some] at hBack ⊢
      intro inner hInner
      have hText := Text.chopBack?_eq_some_iff.mp hInner
      cases inner with
      | nil => simp at hText
      | cons first inner =>
        rw [List.cons_append, List.cons.injEq] at hText
        exact hBack inner (Text.chopBack?_eq_some_iff.mpr hText.2)
    rw [hWhole, Option.getD_none, List.all_cons, Bool.and_eq_true] at hAll
    exact hAll.2

theorem namesOnly_ofLine? {line : String} {r : Rule} (hLine : isNameLine line = true)
    (h : ofLine? line = some r) : r.pattern.namesOnly = true := by
  unfold ofLine? at h
  split at h
  · cases h
  · rename_i hPattern
    have hText : isNameText (unmarked (trimmed line.toList)) = true := by
      rcases Bool.or_eq_true_iff.mp hLine with hComment | hText
      · obtain ⟨rest, hRest⟩ := List.head?_eq_some_iff.mp (beq_iff_eq.mp hComment)
        exact (hPattern rest hRest).elim
      · exact hText
    generalize trimmed line.toList = pattern at h hText
    split at h
    · cases h
    · exact namesOnly_ofPattern? (isNameText_tail (by decide) hText) h
    · exact namesOnly_ofPattern? (isNameText_tail (by decide) hText) h
    · exact namesOnly_ofTied? hText h
    · rename_i hUnmarked
      have hWhole : unmarked pattern = pattern := by
        unfold unmarked
        split
        · exact (hUnmarked _ rfl).elim
        · rfl
      exact namesOnly_ofTied? (hWhole ▸ hText) h

end Rule

theorem namesOnly_rulesOf {lines : List String}
    (hLines : ∀ line ∈ lines.modifyHead withoutMark, isNameLine line = true) :
    ∀ r ∈ rulesOf lines, r.pattern.namesOnly = true := by
  intro r hr
  cases lines with
  | nil => cases hr
  | cons first rest =>
    obtain ⟨line, hLine, hRule⟩ := List.mem_filterMap.mp hr
    exact Rule.namesOnly_ofLine? (hLines line hLine) hRule

example : ["node_modules", "dist/", "*.log", "!keep.ts", "# a/b"].all isNameLine = true ∧
    ["/dist", "src/out", "[!a]", "{a,b}"].any isNameLine = false := by decide +kernel

end ModuleAtlas.Ignore
