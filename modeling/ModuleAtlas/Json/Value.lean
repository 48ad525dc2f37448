/-!
# JSON values

Reading a typed value out of JSON accepts two shapes for a record: an object with the record's
fields, or an array that lists the fields in order and may stop early. An object may have unknown
keys, but no known one twice.
-/

namespace ModuleAtlas.Json

/-- A JSON value; a number is kept as it is spelled. -/
inductive Value where
  | null
  | bool (b : Bool)
  | number (spelling : String)
  | string (s : String)
  | array (items : List Value)
  | object (fields : List (String × Value))
deriving Inhabited

namespace Value

def string? : Value → Option String
  | string s => some s
  | _ => none

def bool? : Value → Option Bool
  | bool b => some b
  | _ => none

def array? : Value → Option (List Value)
  | array items => some items
  | _ => none

def list? {α : Type} (read : Value → Option α) (v : Value) : Option (List α) :=
  v.array?.bind fun items => items.mapM read

def optional? {α : Type} (read : Value → Option α) : Value → Option (Option α)
  | null => some none
  | v => (read v).map some

/-- The names of a record that an object has fields for. -/
def given (names : List String) (fields : List (String × Value)) : List String :=
  (fields.map Prod.fst).filter names.contains

/-- The values of a record's fields, in the order of their names. Fields of an object that have no
such name are passed over, and no name may come twice; an array must not have more items than there
are names. -/
def record? (names : List String) : Value → Option (List (Option Value))
  | object fields =>
    if (given names fields).Nodup then some (names.map fun name => fields.lookup name) else none
  | array items =>
    if items.length ≤ names.length then
      some (items.map some ++ List.replicate (names.length - items.length) none)
    else none
  | _ => none

/-- The name of a case without data: a text, or an object with that name and `null` alone. -/
def case? : Value → Option String
  | string s => some s
  | object [(name, null)] => some name
  | _ => none

def required? {α : Type} (read : Value → Option α) (field : Option Value) : Option α :=
  field.bind read

def orElse? {α : Type} (read : Value → Option α) (absent : α) : Option Value → Option α
  | none => some absent
  | some v => read v

def strings (xs : List String) : Value := array (xs.map string)

def ofOption {α : Type} (write : α → Value) : Option α → Value
  | none => null
  | some x => write x

end Value

end ModuleAtlas.Json
