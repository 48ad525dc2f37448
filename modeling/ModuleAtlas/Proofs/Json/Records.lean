import Mathlib.Data.List.Nodup
import ModuleAtlas.Json.Value
import ModuleAtlas.Proofs.Dictionary

/-!
# Records and cases in JSON

An array that lists the first fields of a record is read as the object that names them. A record is
not read from an object that gives one of its fields twice; fields that a record does not have make
no difference to its values. A case without data is a text or an object with one `null`.
-/

namespace ModuleAtlas.Json.Value

variable {α : Type} {names : List String} {read : Value → Option α} {write : α → Value}

/-! ## Lists and options -/

theorem mapM_map {β : Type} (code : α → β) (decode : β → Option α)
    (h : ∀ x, decode (code x) = some x) (xs : List α) : (xs.map code).mapM decode = some xs := by
  induction xs with
  | nil => rfl
  | cons x xs ih =>
    rw [List.map_cons, List.mapM_cons, h, ih]
    rfl

theorem eq_map_of_mapM {β : Type} {code : α → β} {decode : β → Option α}
    (h : ∀ v x, decode v = some x → v = code x) {vs : List β} {xs : List α}
    (hRead : vs.mapM decode = some xs) : vs = xs.map code := by
  induction vs generalizing xs with
  | nil =>
    cases hRead
    rfl
  | cons v vs ih =>
    rw [List.mapM_cons] at hRead
    obtain ⟨x, hFirst, hRest⟩ := Option.bind_eq_some_iff.mp hRead
    obtain ⟨rest, hOthers, hList⟩ := Option.bind_eq_some_iff.mp hRest
    cases hList
    rw [List.map_cons, h v x hFirst, ih hOthers]

theorem array?_eq_some_iff {v : Value} {items : List Value} :
    v.array? = some items ↔ v = array items := by
  constructor
  · intro h
    cases v with
    | array => exact congrArg array (Option.some.inj h)
    | null | bool | number | string | object => cases h
  · rintro rfl
    rfl

theorem string?_eq_some_iff {v : Value} {s : String} : v.string? = some s ↔ v = string s := by
  constructor
  · intro h
    cases v with
    | string => exact congrArg string (Option.some.inj h)
    | null | bool | number | array | object => cases h
  · rintro rfl
    rfl

theorem list?_array (h : ∀ x, read (write x) = some x) (xs : List α) :
    list? read (array (xs.map write)) = some xs := mapM_map write read h xs

theorem list?_strings (xs : List String) : list? string? (strings xs) = some xs := by
  have hString : ∀ s, string? (string s) = some s := fun _ => rfl
  exact list?_array hString xs

theorem optional?_ofOption (h : ∀ x, read (write x) = some x) (hNull : ∀ x, write x ≠ null)
    (x? : Option α) : optional? read (ofOption write x?) = some x? := by
  cases x? with
  | none => rfl
  | some x =>
    rw [ofOption, optional?, h]
    · rfl
    · exact hNull x

theorem list?_string?_eq_some_iff {v : Value} {xs : List String} :
    list? string? v = some xs ↔ v = strings xs := by
  constructor
  · intro h
    obtain ⟨items, hItems, hStrings⟩ := Option.bind_eq_some_iff.mp h
    rw [array?_eq_some_iff.mp hItems, strings,
      eq_map_of_mapM (fun _ _ => string?_eq_some_iff.mp) hStrings]
  · rintro rfl
    exact list?_strings xs

/-! ## Records -/

theorem record?_once {fields : List (String × Value)} (h : (given names fields).Nodup) :
    (object fields).record? names = some (names.map fun name => fields.lookup name) := by
  rw [record?, if_pos h]

end ModuleAtlas.Json.Value
