/-!
# TOML tables

A table grows entry by entry while a document is read. Where it came from decides who may still add
to it: a table in braces is complete, one written with dotted keys is added to by dotted keys, and a
header may define each table once.
-/

namespace ModuleAtlas.Toml

inductive Origin where
  | braces
  | dotted
  | header
  /-- Named by a header of a table inside it. -/
  | implied
deriving DecidableEq

/-- A value of a document. Numbers and dates have no place in settings and are not read. -/
inductive Value where
  | string (s : String)
  | bool (b : Bool)
  | array (items : List Value)
  | table (origin : Origin) (entries : List (String × Value))
  /-- An array of tables, the newest first. -/
  | tables (newest : List (String × Value)) (earlier : List (List (String × Value)))

abbrev Entries := List (String × Value)

namespace Entries

def set (entries : Entries) (key : String) (value : Value) : Entries :=
  if entries.any (·.1 == key) then entries.map fun e => if e.1 == key then (key, value) else e
  else entries ++ [(key, value)]

def add? (entries : Entries) (key : String) (value : Value) : Option Entries :=
  if entries.any (·.1 == key) then none else some (entries ++ [(key, value)])

def addDotted? : List String → Value → Entries → Option Entries
  | [], _, _ => none
  | [key], value, entries => entries.add? key value
  | key :: path, value, entries =>
    match entries.lookup key with
    | none => (addDotted? path value []).map fun inner => entries.set key (.table .dotted inner)
    | some (.table .dotted inner) =>
      (addDotted? path value inner).map fun inner => entries.set key (.table .dotted inner)
    | some _ => none

/-- Changes the table that a header names, after the tables on the way to it are there. -/
def change? (atEnd : String → Entries → Option Entries) : List String → Entries → Option Entries
  | [], _ => none
  | [key], entries => atEnd key entries
  | key :: path, entries =>
    match entries.lookup key with
    | none => (change? atEnd path []).map fun inner => entries.set key (.table .implied inner)
    | some (.table .braces _) => none
    | some (.table origin inner) =>
      (change? atEnd path inner).map fun inner => entries.set key (.table origin inner)
    | some (.tables newest earlier) =>
      (change? atEnd path newest).map fun newest => entries.set key (.tables newest earlier)
    | some _ => none

def define? (key : String) (entries : Entries) : Option Entries :=
  match entries.lookup key with
  | none => some (entries.set key (.table .header []))
  | some (.table .implied inner) => some (entries.set key (.table .header inner))
  | some _ => none

def append? (key : String) (entries : Entries) : Option Entries :=
  match entries.lookup key with
  | none => some (entries.set key (.tables [] []))
  | some (.tables newest earlier) => some (entries.set key (.tables [] (newest :: earlier)))
  | some _ => none

/-- Adds an entry under a dotted key to the table that a header defined before. -/
def addTo? (path : List String) (value : Value) (key : String) (entries : Entries) :
    Option Entries :=
  match entries.lookup key with
  | some (.table origin inner) =>
    (addDotted? path value inner).map fun inner => entries.set key (.table origin inner)
  | some (.tables newest earlier) =>
    (addDotted? path value newest).map fun newest => entries.set key (.tables newest earlier)
  | _ => none

end Entries

end ModuleAtlas.Toml
