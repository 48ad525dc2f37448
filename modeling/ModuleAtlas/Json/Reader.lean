import ModuleAtlas.Json.Token

/-!
# Reading typed values

A reader takes a typed value off the front of a row of tokens. The first fault from left to right
decides, whether it is a wrong type, a wrong token or the end of the text.

Assumed of reading records: a known key may come once, unknown keys are passed over without a look
at the range of their numbers or the halves in their strings, and an array gives the fields in
order. A fault is told by its kind only.
-/

namespace ModuleAtlas.Json

abbrev Reader (α : Type) := List Token → Except Fault (α × List Token)

namespace Reader

/-- The fault of a value that is not of the type wanted. A value that cannot be read at all is the
graver fault. -/
def mismatchOf : List Token → Fault
  | [] => .early
  | .broken wanted _ :: _ | .brokenString wanted _ :: _ => wanted
  | .string (.error f) :: _ | .scalar (some f) :: _ => f
  | .string (.ok _) :: _ | .scalar none :: _ | .null :: _ => .mismatch
  | .openArray :: _ | .openObject :: _ => .mismatch
  | .closeArray :: _ | .closeObject :: _ | .comma :: _ | .colon :: _ => .malformed

def string : Reader String
  | .string (.ok s) :: rest => .ok (s, rest)
  | tokens => .error (mismatchOf tokens)

def optional {α : Type} (read : Reader α) : Reader (Option α)
  | .null :: rest => .ok (none, rest)
  | tokens => (read tokens).map fun (x, rest) => (some x, rest)

/-! ## Elements and entries -/

/-- Whether an array has another element; the comma before it is taken. -/
def nextElement (isFirst : Bool) : Reader Bool
  | [] => .error .early
  | .closeArray :: rest => .ok (false, .closeArray :: rest)
  | .comma :: rest =>
    if isFirst then .error .malformed
    else
      match rest with
      | [] => .error .early
      | .closeArray :: _ => .error .malformed
      | rest => .ok (true, rest)
  | tokens => if isFirst then .ok (true, tokens) else .error .malformed

def key : Reader String
  | [] => .error .early
  | .string text :: rest => text.map fun s => (s, rest)
  | .brokenString wanted _ :: _ => .error wanted
  | _ => .error .malformed

def nextKey (isFirst : Bool) : Reader (Option String)
  | [] => .error .early
  | .closeObject :: rest => .ok (none, .closeObject :: rest)
  | .comma :: rest =>
    if isFirst then .error .malformed else (key rest).map fun (k, rest) => (some k, rest)
  | tokens =>
    if isFirst then (key tokens).map fun (k, rest) => (some k, rest) else .error .malformed

def colon : Reader Unit
  | [] => .error .early
  | .colon :: rest => .ok ((), rest)
  | _ => .error .malformed

def endArray : Reader Unit
  | [] => .error .early
  | .closeArray :: rest => .ok ((), rest)
  | _ => .error .malformed

def endObject : Reader Unit
  | [] => .error .early
  | .closeObject :: rest => .ok ((), rest)
  | _ => .error .malformed

/-- The elements of an array; each takes at least one token. -/
def elements {α : Type} (read : Reader α) : Nat → Bool → Reader (List α)
  | 0, _, _ => .error .early
  | n + 1, isFirst, tokens => do
    let (more, rest) ← nextElement isFirst tokens
    if more then
      let (x, rest) ← read rest
      let (xs, rest) ← elements read n false rest
      return (x :: xs, rest)
    else return ([], rest)

def list {α : Type} (read : Reader α) : Reader (List α)
  | .openArray :: rest => do
    let (xs, rest) ← elements read (rest.length + 1) true rest
    let ((), rest) ← endArray rest
    return (xs, rest)
  | tokens => .error (mismatchOf tokens)

/-- The entries of an object; each takes at least one token. -/
def entries {α : Type} (read : Reader α) : Nat → Bool → Reader (List (String × α))
  | 0, _, _ => .error .early
  | n + 1, isFirst, tokens => do
    let (k, rest) ← nextKey isFirst tokens
    match k with
    | none => return ([], rest)
    | some k =>
      let ((), rest) ← colon rest
      let (x, rest) ← read rest
      let (xs, rest) ← entries read n false rest
      return ((k, x) :: xs, rest)

def object {α : Type} (read : Reader α) : Reader (List (String × α))
  | .openObject :: rest => do
    let (xs, rest) ← entries read (rest.length + 1) true rest
    let ((), rest) ← endObject rest
    return (xs, rest)
  | tokens => .error (mismatchOf tokens)

/-! ## Passing over values -/

inductive Due where
  | value
  | item
  | separator
  | key
  | colon
  | nothing
deriving DecidableEq

/-- A value passed over in part: what is due, and the open brackets, the innermost first. -/
structure Passing where
  due : Due
  /-- An entry is true for an object. -/
  inObject : List Bool

namespace Passing

def behind (inObject : List Bool) : Passing :=
  ⟨if inObject.isEmpty then .nothing else .separator, inObject⟩

def passValue (inObject : List Bool) : Token → Except Fault Passing
  | .openArray => .ok ⟨.item, false :: inObject⟩
  | .openObject => .ok ⟨.item, true :: inObject⟩
  | .null | .scalar _ | .string _ => .ok (behind inObject)
  | .broken _ passed | .brokenString _ passed => .error passed
  | _ => .error .malformed

def passKey (inObject : List Bool) : Token → Except Fault Passing
  | .string _ => .ok ⟨.colon, inObject⟩
  | .brokenString _ passed => .error passed
  | _ => .error .malformed

def pass (p : Passing) (t : Token) : Except Fault Passing :=
  match p.due, p.inObject, t with
  | .item, true :: outer, .closeObject | .separator, true :: outer, .closeObject => .ok (behind outer)
  | .item, false :: outer, .closeArray | .separator, false :: outer, .closeArray =>
    .ok (behind outer)
  | .item, true :: outer, t => passKey (true :: outer) t
  | .item, inObject, t => passValue inObject t
  | .separator, true :: outer, .comma => .ok ⟨.key, true :: outer⟩
  | .separator, inObject, .comma => .ok ⟨.value, inObject⟩
  | .separator, _, _ => .error .malformed
  | .key, inObject, t => passKey inObject t
  | .colon, inObject, .colon => .ok ⟨.value, inObject⟩
  | .colon, _, _ => .error .malformed
  | .value, inObject, t | .nothing, inObject, t => passValue inObject t

def finish : Passing → Reader Unit
  | _, [] => .error .early
  | p, t :: rest =>
    match p.pass t with
    | .error f => .error f
    | .ok p => if p.due = .nothing then .ok ((), rest) else finish p rest

end Passing

def skip : Reader Unit := Passing.finish ⟨.value, []⟩

/-! ## Records -/

/-- A field of a record that is read into a value under construction. -/
structure Field (σ : Type) where
  name : String
  /-- An array may end before this field. -/
  mayEndBefore : Bool
  read : σ → Reader σ

/-- The fields of a record given as an object. Unknown keys are passed over, a known one must not
come twice. -/
def objectFields {σ : Type} (fields : List (Field σ)) : Nat → Bool → List String → σ → Reader σ
  | 0, _, _, _, _ => .error .early
  | n + 1, isFirst, seen, s, tokens => do
    let (k, rest) ← nextKey isFirst tokens
    match k with
    | none => return (s, rest)
    | some k =>
      match fields.find? (·.name = k) with
      | none =>
        let ((), rest) ← colon rest
        let ((), rest) ← skip rest
        objectFields fields n false seen s rest
      | some field =>
        if seen.contains k then .error .mismatch
        else
          let ((), rest) ← colon rest
          let (s, rest) ← field.read s rest
          objectFields fields n false (k :: seen) s rest

def arrayFields {σ : Type} : List (Field σ) → Bool → σ → Reader σ
  | [], _, s, tokens => .ok (s, tokens)
  | field :: fields, isFirst, s, tokens => do
    let (more, rest) ← nextElement isFirst tokens
    if more then
      let (s, rest) ← field.read s rest
      arrayFields fields false s rest
    else if field.mayEndBefore then arrayFields fields isFirst s rest
    else .error .mismatch

def record {σ : Type} (fields : List (Field σ)) (s : σ) : Reader σ
  | .openObject :: rest => do
    let (s, rest) ← objectFields fields (rest.length + 1) true [] s rest
    let ((), rest) ← endObject rest
    return (s, rest)
  | .openArray :: rest => do
    let (s, rest) ← arrayFields fields true s rest
    let ((), rest) ← endArray rest
    return (s, rest)
  | tokens => .error (mismatchOf tokens)

def whole {α : Type} (read : Reader α) (text : List Char) : Except Fault α :=
  match read (Token.ofText text) with
  | .ok (x, []) => .ok x
  | .ok (_, _ :: _) => .error .malformed
  | .error f => .error f

end Reader

end ModuleAtlas.Json
