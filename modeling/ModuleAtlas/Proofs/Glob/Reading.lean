import ModuleAtlas.Glob.Reading
import ModuleAtlas.Proofs.Glob.Names

/-!
# Reading patterns for names

Text without slashes, classes and groups adds pieces that match no slash. Read behind the wildcard
for any depth it gives a pattern for names.
-/

namespace ModuleAtlas.Glob

/-- Characters that stay ordinary or match within a name. -/
def staysInName (c : Char) : Bool := c != '/' && c != '[' && c != '{'

theorem staysInName_iff {c : Char} : staysInName c = true ↔ c ≠ '/' ∧ c ≠ '[' ∧ c ≠ '{' := by
  simp [staysInName, and_assoc]

theorem inPieces_iff {pieces : List Piece} :
    Piece.avoidsSlash.inPieces pieces = true ↔ ∀ piece ∈ pieces, piece.avoidsSlash = true := by
  induction pieces with
  | nil => simp [Piece.avoidsSlash.inPieces]
  | cons piece pieces ih => simp [Piece.avoidsSlash.inPieces, ih]

namespace Reading

/-- What has been read, newest first, asks for a name at any depth; right after the slash of the
leading wildcard nothing else has been read. -/
structure ForName (r : Reading) (prev : Option Char) : Prop where
  closed : r.groups = []
  read : ∃ pieces, (∀ piece ∈ pieces, piece.avoidsSlash = true) ∧ r.current = pieces ++ [.leading] ∧
    (prev = some '/' → pieces = [])

variable {r : Reading} {prev : Option Char}

theorem ForName.push {piece : Piece} {c : Char} (h : r.ForName prev)
    (hPiece : piece.avoidsSlash = true) (hChar : c ≠ '/') : (r.push piece).ForName (some c) := by
  obtain ⟨hClosed, pieces, hPieces, hRead, -⟩ := h
  refine ⟨hClosed, piece :: pieces, ?_, ?_, ?_⟩
  · simpa using ⟨hPiece, hPieces⟩
  · rw [Reading.push, hRead, List.cons_append]
  · simpa using hChar

theorem ForName.pushChar {c : Char} (h : r.ForName prev) (hChar : c ≠ '/') :
    (r.push (.char c)).ForName (some c) := by
  have hPiece : (Piece.char c).avoidsSlash = true := bne_iff_ne.mpr hChar
  exact h.push hPiece hChar

theorem ForName.twoRuns (h : r.ForName prev) : r.twoRuns.ForName (some '*') :=
  (h.push rfl (by decide : '*' ≠ '/')).push rfl (by decide)

/-- Two stars are two runs inside a name, and nothing new right after the leading wildcard. -/
theorem ForName.stars {rest : List Char} (h : r.ForName prev) (hRest : '/' ∉ rest) :
    ∃ r', r.stars prev rest = (r', false) ∧ r'.ForName (some '*') := by
  have hNext : rest.head? ≠ some '/' := fun hHead => hRest (List.mem_of_head? hHead)
  obtain ⟨hClosed, pieces, hPieces, hRead, hFirst⟩ := id h
  have hSome : r.current.isEmpty = false := by simp [hRead]
  rw [Reading.stars, hSome, hClosed]
  by_cases hPrev : prev = some '/'
  · -- Only the leading wildcard has been read; two stars at the end repeat it.
    have hLeading : r.current = [.leading] := by rw [hRead, hFirst hPrev, List.nil_append]
    by_cases hEnd : rest.head? = none
    · refine ⟨r, ?_, ⟨hClosed, [], nofun, hLeading, fun _ => rfl⟩⟩
      simp [hPrev, hEnd, Reading.recursive, hLeading]
    · exact ⟨r.twoRuns, by simp [hPrev, hEnd, hNext], h.twoRuns⟩
  · exact ⟨r.twoRuns, by simp [hPrev], h.twoRuns⟩

theorem ForName.readPieces {fuel : Nat} {brackets : Brackets} {text : List Char} {r' : Reading}
    (h : r.ForName prev) (hText : ∀ c ∈ text, staysInName c = true)
    (hRead : Glob.readPieces fuel brackets r prev text = .ok r') : ∃ prev', r'.ForName prev' := by
  induction fuel generalizing brackets r prev text with
  | zero =>
    cases hRead
    exact ⟨prev, h⟩
  | succ fuel ih =>
    cases text with
    | nil =>
      cases hRead
      exact ⟨prev, h⟩
    | cons c rest =>
      have hStays : staysInName c = true := hText c (.head _)
      have hRest : ∀ d ∈ rest, staysInName d = true := fun d hd => hText d (.tail _ hd)
      have hOrdinary : ∀ d, staysInName d = true → d ≠ '/' := fun d hd => (staysInName_iff.mp hd).1
      unfold Glob.readPieces at hRead
      split at hRead
      case h_1 => exact ih (h.push rfl (by decide)) hRest hRead
      case h_2 =>
        split at hRead
        · rename_i rest
          have hBehind : ∀ d ∈ rest, staysInName d = true := fun d hd => hRest d (.tail _ hd)
          obtain ⟨r', hStars, hForName⟩ := h.stars fun hSlash => hOrdinary _ (hBehind _ hSlash) rfl
          rw [hStars] at hRead
          exact ih hForName hBehind hRead
        · exact ih (h.push rfl (by decide)) hRest hRead
      case h_3 | h_4 => cases hStays
      case h_5 =>
        -- No group is open, so there is none to close.
        rw [Reading.closeGroup, h.closed] at hRead
        cases hRead
      case h_6 =>
        rw [Reading.comma, h.closed] at hRead
        exact ih (h.pushChar (by decide)) hRest hRead
      case h_7 =>
        split at hRead
        · cases hRead
        · rename_i d rest
          have hEscaped : d ≠ '/' := hOrdinary d (hRest d (.head _))
          exact ih (h.pushChar hEscaped) (fun d hd => hRest d (.tail _ hd)) hRead
      case h_8 =>
        exact ih (h.pushChar (hOrdinary c hStays)) hRest hRead

end Reading

theorem namesOnly_of_text {brackets : Brackets} {text : List Char} {p : Pattern}
    (hText : ∀ c ∈ text, staysInName c = true)
    (h : Pattern.ofTextWith brackets (String.ofList ('*' :: '*' :: '/' :: text)) = .ok p) :
    p.namesOnly = true := by
  have hStart : (Reading.mk [.leading] []).ForName (some '/') :=
    ⟨rfl, [], nofun, rfl, fun _ => rfl⟩
  rw [Pattern.ofTextWith, String.toList_ofList] at h
  split at h
  · cases h
  · rename_i r hRead
    have hBehind : readPieces (text.length + 2) brackets ⟨[.leading], []⟩ (some '/') text = .ok r :=
      hRead
    obtain ⟨-, hClosed, pieces, hPieces, hCurrent, -⟩ := hStart.readPieces hText hBehind
    rw [hClosed] at h
    cases h
    have hReversed : r.current.reverse = .leading :: pieces.reverse := by
      rw [hCurrent, List.reverse_append]
      rfl
    rw [Pattern.namesOnly]
    dsimp only
    rw [hReversed]
    simpa [inPieces_iff] using hPieces

end ModuleAtlas.Glob
