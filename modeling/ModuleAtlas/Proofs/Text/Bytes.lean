import Mathlib.Data.String.Basic

/-!
# The order of texts as the order of their bytes

Texts compare character by character. Encoded in UTF-8 they compare byte by byte in the same way,
because the bytes of a greater character are greater.
-/

namespace ModuleAtlas.Text

/-- The bytes of a text in UTF-8. -/
def bytes (s : String) : List UInt8 := s.toUTF8.data.toList

theorem bytes_eq (s : String) : bytes s = s.toList.flatMap String.utf8EncodeChar := by
  have hBytes : ∀ chars : List Char,
      (String.ofList chars).toByteArray.data.toList = chars.flatMap String.utf8EncodeChar := by
    intro chars
    rw [String.toByteArray_ofList, List.utf8Encode]
    simp
  rw [bytes, String.toUTF8_eq_toByteArray, ← hBytes, String.ofList_toList]

theorem code_lt (c : Char) : c.val.toNat < 0x110000 := by
  rcases c.valid with h | ⟨-, h⟩
  · exact h.trans (by decide)
  · exact h

/-- The bytes of a greater character are greater, whatever follows them. -/
theorem encode_lt {a b : Char} (h : a < b) (rest rest' : List UInt8) :
    String.utf8EncodeChar a ++ rest < String.utf8EncodeChar b ++ rest' := by
  have hLess : a.val.toNat < b.val.toNat := h
  have hEnd : b.val.toNat < 0x110000 := code_lt b
  rw [String.utf8EncodeChar, String.utf8EncodeChar]
  generalize a.val.toNat = v at *
  generalize b.val.toNat = w at *
  -- A character has one to four bytes; the first byte of a longer one is greater.
  split_ifs <;>
    simp (disch := omega) only [List.cons_append, List.nil_append, List.cons_lt_cons_iff,
      UInt8.lt_iff_toNat_lt, ← UInt8.toNat_inj, UInt8.toNat_ofNat', Nat.mod_eq_of_lt] <;>
    omega

theorem flatMap_encode_lt {xs ys : List Char} (h : xs < ys) :
    xs.flatMap String.utf8EncodeChar < ys.flatMap String.utf8EncodeChar := by
  induction xs generalizing ys with
  | nil =>
    cases ys with
    | nil => cases h
    | cons b ys =>
      rw [List.flatMap_cons]
      cases hFirst : String.utf8EncodeChar b with
      | nil => exact (String.utf8EncodeChar_ne_nil hFirst).elim
      | cons => exact List.Lex.nil
  | cons a xs ih =>
    cases ys with
    | nil => cases h
    | cons b ys =>
      rw [List.flatMap_cons, List.flatMap_cons]
      rcases List.cons_lt_cons_iff.mp h with hLess | ⟨rfl, hRest⟩
      · exact encode_lt hLess ..
      · exact List.append_left_lt (ih hRest)

/-- The order of characters and the order of bytes tell texts apart in the same way. -/
theorem bytes_lt_iff {s t : String} : bytes s < bytes t ↔ s < t := by
  have hMono : ∀ {s t : String}, s < t → bytes s < bytes t := by
    intro s t h
    rw [bytes_eq, bytes_eq]
    exact flatMap_encode_lt (String.lt_iff_toList_lt.mp h)
  refine ⟨fun h => ?_, hMono⟩
  rcases lt_trichotomy s t with hLess | rfl | hGreater
  · exact hLess
  · exact (List.lt_irrefl _ h).elim
  · exact (List.lt_asymm h (hMono hGreater)).elim

theorem compare_eq_lt_iff {s t : String} : compare s t = .lt ↔ bytes s < bytes t := by
  rw [bytes_lt_iff]
  exact compare_lt_iff_lt

theorem compare_encoded_eq_lt_iff {xs ys : List UInt8} : compare xs ys = .lt ↔ xs < ys := by
  induction xs generalizing ys with
  | nil => cases ys <;> simp
  | cons x xs ih =>
    cases ys with
    | nil => simp
    | cons y ys =>
      rw [List.compare_cons_cons, Ordering.then_eq_lt, List.cons_lt_cons_iff, ih,
        Std.compare_eq_lt, Std.LawfulEqOrd.compare_eq_iff_eq]

end ModuleAtlas.Text
