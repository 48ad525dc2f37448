import ModuleAtlas.Glob.Matching
import ModuleAtlas.Proofs.Files.Below
import ModuleAtlas.Proofs.Text.Bytes
import ModuleAtlas.Proofs.Text.Signs

/-!
# Patterns for names

A pattern that starts at any depth and matches no slash after that looks at the last name of a path
only: the directories above the name do not show in its answer.
-/

namespace ModuleAtlas.Glob

/-- Whether a piece matches no slash. -/
def Piece.avoidsSlash : Piece → Bool
  | .char c => c != '/'
  | .anyByte | .run => true
  | .leading | .trailing | .inner => false
  | .oneOf negated ranges => inRanges ranges slash == negated
  | .either branches => inBranches branches
where
  inPieces : List Piece → Bool
    | [] => true
    | piece :: rest => avoidsSlash piece && inPieces rest
  inBranches : List (List Piece) → Bool
    | [] => true
    | branch :: rest => inPieces branch && inBranches rest

/-- Whether a pattern asks for a name at any depth. -/
def Pattern.namesOnly (p : Pattern) : Bool :=
  match p.pieces with
  | .leading :: rest => Piece.avoidsSlash.inPieces rest
  | _ => false

theorem slash_mem_encode {c : Char} : slash ∈ String.utf8EncodeChar c ↔ c = '/' := by
  constructor
  · intro h
    have hEnd : c.val.toNat < 0x110000 := Text.code_lt c
    rw [← Char.val_inj, ← UInt32.toNat_inj]
    rw [String.utf8EncodeChar] at h
    generalize c.val.toNat = v at *
    have hSlash : ('/' : Char).val.toNat = 47 := rfl
    rw [hSlash]
    split_ifs at h <;>
      simp (disch := omega) only [List.mem_cons, List.not_mem_nil, or_false, slash,
        ← UInt8.toNat_inj, UInt8.toNat_ofNat', UInt8.toNat_ofNat, Nat.mod_eq_of_lt] at h <;>
      omega
  · rintro rfl
    decide

theorem slash_not_mem_encode {name : List Char} (h : '/' ∉ name) : slash ∉ Text.encode name := by
  rw [Text.encode, List.mem_flatMap]
  rintro ⟨sign, hSign, hSlash⟩
  cases sign with
  | char c => exact h (slash_mem_encode.mp hSlash ▸ Text.mem_of_char_mem_signs hSign)
  | stray b =>
    obtain rfl := List.mem_singleton.mp hSlash
    exact absurd (Text.le_of_stray_mem_signs hSign) (by decide)

theorem afterBytes_iff {k : List UInt8 → Bool} {front bytes : List UInt8} :
    afterBytes k front bytes = true ↔ ∃ rest, bytes = front ++ rest ∧ k rest = true := by
  induction front generalizing bytes with
  | nil => simp [afterBytes]
  | cons a front ih =>
    cases bytes with
    | nil => simp [afterBytes]
    | cons b bytes =>
      rw [afterBytes, Bool.and_eq_true, ih, beq_iff_eq]
      constructor
      · rintro ⟨rfl, rest, rfl, hRest⟩
        exact ⟨rest, rfl, hRest⟩
      · rintro ⟨rest, hBytes, hRest⟩
        obtain ⟨rfl, rfl⟩ := List.cons_eq_cons.mp hBytes
        exact ⟨rfl, rest, rfl, hRest⟩

theorem afterRun_slash_free {k : List UInt8 → Bool} (hk : ∀ bytes, k bytes = true → slash ∉ bytes)
    {bytes : List UInt8} (h : afterRun (· != slash) k bytes = true) : slash ∉ bytes := by
  induction bytes with
  | nil => nofun
  | cons b rest ih =>
    rw [afterRun, Bool.or_eq_true, Bool.and_eq_true] at h
    rcases h with hStop | ⟨hByte, hGo⟩
    · exact hk _ hStop
    · rw [List.mem_cons, not_or]
      exact ⟨(bne_iff_ne.mp hByte).symm, ih hGo⟩

mutual
theorem matchPiece_slash_free (piece : Piece) (hPiece : piece.avoidsSlash = true)
    {k : List UInt8 → Bool} (hk : ∀ bytes, k bytes = true → slash ∉ bytes) {bytes : List UInt8}
    (h : matchPiece piece k bytes = true) : slash ∉ bytes := by
  cases piece with
  | char c =>
    obtain ⟨rest, rfl, hRest⟩ := afterBytes_iff.mp h
    rw [List.mem_append, not_or, slash_mem_encode]
    exact ⟨bne_iff_ne.mp hPiece, hk _ hRest⟩
  | anyByte =>
    cases bytes with
    | nil => cases h
    | cons b rest =>
      obtain ⟨hByte, hRest⟩ := Bool.and_eq_true_iff.mp h
      rw [List.mem_cons, not_or]
      exact ⟨(bne_iff_ne.mp hByte).symm, hk _ hRest⟩
  | run => exact afterRun_slash_free hk h
  | leading | trailing | inner => cases hPiece
  | oneOf negated ranges =>
    cases bytes with
    | nil => cases h
    | cons b rest =>
      obtain ⟨hByte, hRest⟩ := Bool.and_eq_true_iff.mp h
      have hSlash : inRanges ranges slash = negated := beq_iff_eq.mp hPiece
      rw [List.mem_cons, not_or]
      refine ⟨?_, hk _ hRest⟩
      rintro rfl
      exact bne_iff_ne.mp hByte hSlash
  | either branches =>
    cases branches with
    | nil => exact hk _ h
    | cons branch rest => exact matchBranches_slash_free (branch :: rest) hPiece hk h

theorem matchPieces_slash_free (pieces : List Piece)
    (hPieces : Piece.avoidsSlash.inPieces pieces = true) {k : List UInt8 → Bool}
    (hk : ∀ bytes, k bytes = true → slash ∉ bytes) {bytes : List UInt8}
    (h : matchPiece.matchPieces pieces k bytes = true) : slash ∉ bytes := by
  cases pieces with
  | nil => exact hk _ h
  | cons piece rest =>
    obtain ⟨hPiece, hRest⟩ := Bool.and_eq_true_iff.mp hPieces
    exact matchPiece_slash_free piece hPiece (fun _ => matchPieces_slash_free rest hRest hk) h

theorem matchBranches_slash_free (branches : List (List Piece))
    (hBranches : Piece.avoidsSlash.inBranches branches = true) {k : List UInt8 → Bool}
    (hk : ∀ bytes, k bytes = true → slash ∉ bytes) {bytes : List UInt8}
    (h : matchPiece.matchBranches branches k bytes = true) : slash ∉ bytes := by
  cases branches with
  | nil => cases h
  | cons branch rest =>
    obtain ⟨hBranch, hRest⟩ := Bool.and_eq_true_iff.mp hBranches
    rcases Bool.or_eq_true_iff.mp h with hFirst | hLater
    · exact matchPieces_slash_free branch hBranch hk hFirst
    · exact matchBranches_slash_free rest hRest hk hLater
end

theorem afterSlash_slash_free {k : List UInt8 → Bool} {bytes : List UInt8} (h : slash ∉ bytes) :
    afterSlash k bytes = false := by
  induction bytes with
  | nil => rfl
  | cons b rest ih =>
    rw [List.mem_cons, not_or] at h
    rw [afterSlash, ih h.2, beq_eq_false_iff_ne.mpr (Ne.symm h.1)]
    rfl

/-- What accepts no slash is tried on what follows the last slash, and fails before that. -/
theorem afterSlash_append {k : List UInt8 → Bool} (hk : ∀ bytes, k bytes = true → slash ∉ bytes)
    (front : List UInt8) {last : List UInt8} (hLast : slash ∉ last) :
    afterSlash k (front ++ slash :: last) = k last := by
  induction front with
  | nil => rw [List.nil_append, afterSlash, afterSlash_slash_free hLast, beq_self_eq_true,
      Bool.true_and, Bool.or_false]
  | cons b front ih =>
    have hRest : k (front ++ slash :: last) = false := by
      rw [Bool.eq_false_iff]
      intro hAccepts
      exact hk _ hAccepts (by simp)
    rw [List.cons_append, afterSlash, hRest, ih, Bool.and_false, Bool.false_or]

/-- A pattern for names does not look at what stands before the last slash. -/
theorem matchPiece_leading_append {pieces : List Piece}
    (hPieces : Piece.avoidsSlash.inPieces pieces = true) (front : List UInt8) {last : List UInt8}
    (hLast : slash ∉ last) :
    matchPiece.matchPieces (.leading :: pieces) List.isEmpty (front ++ slash :: last)
      = matchPiece.matchPieces (.leading :: pieces) List.isEmpty last := by
  have hFree : ∀ bytes,
      matchPiece.matchPieces pieces List.isEmpty bytes = true → slash ∉ bytes := by
    intro bytes
    apply matchPieces_slash_free pieces hPieces
    intro rest hEmpty
    rw [List.isEmpty_iff.mp hEmpty]
    exact List.not_mem_nil
  have hWhole : matchPiece.matchPieces pieces List.isEmpty (front ++ slash :: last) = false := by
    rw [Bool.eq_false_iff]
    intro hAccepts
    exact hFree _ hAccepts (by simp)
  simp only [matchPiece.matchPieces, matchPiece, hWhole, afterSlash_append hFree front hLast,
    afterSlash_slash_free hLast, Bool.false_or, Bool.or_false]

namespace Pattern

variable {p : Pattern} {path name : String}

theorem endsUp_iff : endsUp path = true ↔ (Path.mk path).segments.getLast? = some ".." := by
  have hSlashed : ∀ front : String, front ++ "/" ++ ".." = front ++ "/.." := by
    intro front
    rw [String.append_assoc]
    rfl
  rw [endsUp, Bool.or_eq_true, beq_iff_eq, Text.endsWith_iff, Path.getLast?_segments_iff]
  simp only [hSlashed]
  exact ⟨fun h => ⟨by decide, h⟩, And.right⟩

theorem matchesPath_eq (h : p.namesOnly = true)
    (hLast : (Path.mk path).segments.getLast? = some name) :
    p.matchesPath path = p.matchesPath name := by
  obtain ⟨hName, rfl | ⟨front, rfl⟩⟩ := Path.getLast?_segments_iff.mp hLast
  · rfl
  · have hUp : endsUp (front ++ "/" ++ name) = endsUp name := by
      rw [Bool.eq_iff_iff, endsUp_iff, endsUp_iff, hLast, Path.segments_of_slash_free hName]
      rfl
    have hBytes : slash ∉ Text.encode name.toList := slash_not_mem_encode hName
    have hPath : Text.encode (front ++ "/" ++ name).toList
        = Text.encode front.toList ++ slash :: Text.encode name.toList := by
      rw [String.toList_append, String.toList_append, List.append_assoc]
      exact Text.encode_append_slash front.toList name.toList
    rw [namesOnly] at h
    rw [matchesPath, matchesPath, hUp, hPath]
    split at h
    · rename_i pieces hPieces
      rw [hPieces]
      cases pieces with
      | nil => rfl
      | cons piece pieces =>
        dsimp only
        rw [matchPiece_leading_append h _ hBytes]
    · cases h

end Pattern

end ModuleAtlas.Glob
