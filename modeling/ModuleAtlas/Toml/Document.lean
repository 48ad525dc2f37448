import ModuleAtlas.Toml.Table
import ModuleAtlas.Toml.Text

/-!
# TOML documents

A document is a row of lines: entries, and headers that name the table for the entries behind them.

Assumed of the format: a table in braces may span lines and end in a comma, and a string has the
escapes `\x` and `\e` too. A number or a date cannot be a setting, so a document with one is refused
like one that cannot be read. Why a document is refused is not told.
-/

namespace ModuleAtlas.Toml

/-! ## Between values -/

def skipBlanks (text : List Char) : List Char := text.dropWhile Text.isBlank

/-- What follows a comment and the blanks before it on a line. -/
def skipComment : List Char → Option (List Char)
  | '#' :: rest =>
    match rest.dropWhile Text.isPlain with
    | [] => some []
    | '\n' :: rest => some ('\n' :: rest)
    | '\r' :: '\n' :: rest => some ('\r' :: '\n' :: rest)
    | _ => none
  | text => some text

def skipLines : (inComment : Bool) → List Char → Option (List Char)
  | _, [] => some []
  | _, '\n' :: rest | _, '\r' :: '\n' :: rest => skipLines false rest
  | true, c :: rest => if Text.isPlain c then skipLines true rest else none
  | false, '#' :: rest => skipLines true rest
  | false, c :: rest => if Text.isBlank c then skipLines false rest else some (c :: rest)

def endLine (text : List Char) : Option (List Char) :=
  match skipComment (skipBlanks text) with
  | some [] => some []
  | some ('\n' :: rest) | some ('\r' :: '\n' :: rest) => some rest
  | _ => none

/-! ## Keys -/

def isBareChar (c : Char) : Bool := c.isAlphanum || c == '_' || c == '-'

def simpleKey : Reader String
  | '"' :: rest => (Text.basic rest).map fun (s, rest) => (String.ofList s, rest)
  | '\'' :: rest => (Text.raw rest).map fun (s, rest) => (String.ofList s, rest)
  | text =>
    match text.span isBareChar with
    | ([], _) => none
    | (name, rest) => some (String.ofList name, rest)

/-- Simple keys with dots between them; each takes at least one character. -/
def keySteps : Nat → Reader (List String)
  | 0, _ => none
  | n + 1, text => do
    let (key, rest) ← simpleKey (skipBlanks text)
    match skipBlanks rest with
    | '.' :: rest =>
      let (keys, rest) ← keySteps n rest
      return (key :: keys, rest)
    | rest => return ([key], rest)

def dottedKey : Reader (List String) := fun text => keySteps (text.length + 1) text

def keyBeforeValue : Reader (List String) := fun text => do
  match ← dottedKey text with
  | (keys, '=' :: rest) => return (keys, skipBlanks rest)
  | _ => none

/-! ## Values -/

mutual

/-- A value. The number bounds how deep arrays and tables can be and how much they can hold. -/
def valueWithin : Nat → Reader Value
  | 0, _ => none
  | n + 1, text =>
    match text with
    | 't' :: 'r' :: 'u' :: 'e' :: rest => some (.bool true, rest)
    | 'f' :: 'a' :: 'l' :: 's' :: 'e' :: rest => some (.bool false, rest)
    | '[' :: rest => (itemsWithin n rest).map fun (items, rest) => (.array items, rest)
    | '\x7b' :: rest =>
      (pairsWithin n [] rest).map fun (entries, rest) => (.table .braces entries, rest)
    | text => (Text.string text).map fun (s, rest) => (.string s, rest)

/-- The items of an array and its closing bracket; a comma may stand behind the last. -/
def itemsWithin : Nat → Reader (List Value)
  | 0, _ => none
  | n + 1, text => do
    match ← skipLines false text with
    | ']' :: rest => return ([], rest)
    | rest =>
      let (item, rest) ← valueWithin n rest
      match ← skipLines false rest with
      | ']' :: rest => return ([item], rest)
      | ',' :: rest =>
        let (items, rest) ← itemsWithin n rest
        return (item :: items, rest)
      | _ => none

/-- The entries of a table in braces, behind those given, and its closing brace. -/
def pairsWithin : Nat → Entries → Reader Entries
  | 0, _, _ => none
  | n + 1, entries, text => do
    match ← skipLines false text with
    | '\x7d' :: rest => return (entries, rest)
    | rest =>
      let (key, rest) ← keyBeforeValue rest
      let (value, rest) ← valueWithin n rest
      let entries ← Entries.addDotted? key value entries
      match ← skipLines false rest with
      | '\x7d' :: rest => return (entries, rest)
      | ',' :: rest => pairsWithin n entries rest
      | _ => none

end

def value : Reader Value := fun text => valueWithin (text.length + 1) text

/-! ## Lines -/

/-- A document read in part: its entries, and the table that entries go to. -/
structure Document where
  entries : Entries
  current : List String

namespace Document

def addEntry (d : Document) (key : List String) (v : Value) : Option Document :=
  let entries? := match d.current with
    | [] => Entries.addDotted? key v d.entries
    | path => Entries.change? (Entries.addTo? key v) path d.entries
  entries?.map fun entries => { d with entries := entries }

def goTo (d : Document) (path : List String) (atEnd : String → Entries → Option Entries) :
    Option Document :=
  (Entries.change? atEnd path d.entries).map fun entries => ⟨entries, path⟩

def readLine (d : Document) (text : List Char) : Option (Document × List Char) := do
  match text with
  | '[' :: '[' :: rest =>
    match ← dottedKey rest with
    | (path, ']' :: ']' :: rest) => return (← d.goTo path Entries.append?, ← endLine rest)
    | _ => none
  | '[' :: rest =>
    match ← dottedKey rest with
    | (path, ']' :: rest) => return (← d.goTo path Entries.define?, ← endLine rest)
    | _ => none
  | text =>
    let (key, rest) ← keyBeforeValue text
    let (v, rest) ← value rest
    return (← d.addEntry key v, ← endLine rest)

/-- Reads lines to the end of the text; each takes at least one character. -/
def readLines : Nat → Document → List Char → Option Document
  | 0, _, _ => none
  | n + 1, d, text => do
    match ← skipLines false text with
    | [] => return d
    | text =>
      let (d, rest) ← d.readLine text
      readLines n d rest

end Document

/-- The entries of a document, which may start with a byte order mark. -/
def ofText? (text : List Char) : Option Entries :=
  let text := match text with
    | '\uFEFF' :: rest => rest
    | text => text
  (Document.readLines (text.length + 1) ⟨[], []⟩ text).map Document.entries

end ModuleAtlas.Toml
