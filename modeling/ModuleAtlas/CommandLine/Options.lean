import ModuleAtlas.Json.Data

/-!
# Command line options

A command line consists of options only: flags, and settings that take a value. A long name stands
in a word of its own, with its value after an equals sign or in the next word; letters may share a
word. Most options may be given once. The patterns of entries and scopes add up, and of the two
flags about transitivity the last one counts.

Assumed of reading a command line: names are not shortened, a value does not start with a dash
unless it is one, and the first word that asks for help, for the version, or that cannot be taken
decides. What is said about such a word is left out.
-/

namespace ModuleAtlas.CommandLine

inductive Flag where
  | includeExternal
  | includeDeclarations
  | includeTypeOnly
  | transitive
  | noTransitive
  | strict
  | noTsconfig
  | stdout
  | verbose
  | quiet
  | help
  | version
deriving DecidableEq

inductive Setting where
  | root
  | config
  | mode
  | entry
  | scope
  | output
deriving DecidableEq

def ofLongName? : String → Option (Flag ⊕ Setting)
  | "root" => some (.inr .root)
  | "config" => some (.inr .config)
  | "mode" => some (.inr .mode)
  | "entry" => some (.inr .entry)
  | "scope" => some (.inr .scope)
  | "output" => some (.inr .output)
  | "include-external" => some (.inl .includeExternal)
  | "include-dts" => some (.inl .includeDeclarations)
  | "include-type-only" => some (.inl .includeTypeOnly)
  | "transitive" => some (.inl .transitive)
  | "no-transitive" => some (.inl .noTransitive)
  | "strict" => some (.inl .strict)
  | "no-tsconfig" => some (.inl .noTsconfig)
  | "stdout" => some (.inl .stdout)
  | "verbose" => some (.inl .verbose)
  | "quiet" => some (.inl .quiet)
  | "help" => some (.inl .help)
  | "version" => some (.inl .version)
  | _ => none

def ofLetter? : Char → Option (Flag ⊕ Setting)
  | 'o' => some (.inr .output)
  | 'v' => some (.inl .verbose)
  | 'q' => some (.inl .quiet)
  | 'h' => some (.inl .help)
  | 'V' => some (.inl .version)
  | _ => none

/-! ## Words -/

inductive Item where
  | flag (f : Flag)
  | setting (s : Setting) (value : String)
  /-- Words that say nothing. -/
  | misuse
deriving DecidableEq

/-- The items of letters that share a word, and the setting whose value the word does not hold. -/
def ofLetters : List Char → List Item × Option Setting
  | [] => ([], none)
  | c :: rest =>
    match ofLetter? c with
    | some (.inl f) =>
      let (items, waiting) := ofLetters rest
      (.flag f :: items, waiting)
    | some (.inr s) =>
      match rest with
      | [] => ([], some s)
      | '=' :: value => ([.setting s (String.ofList value)], none)
      | value => ([.setting s (String.ofList value)], none)
    | none => ([.misuse], none)

def ofLongWord (word : List Char) : List Item × Option Setting :=
  let (name, rest) := word.span (· != '=')
  match ofLongName? (String.ofList name), rest with
  | some (.inl f), [] => ([.flag f], none)
  | some (.inr s), [] => ([], some s)
  | some (.inr s), _ :: value => ([.setting s (String.ofList value)], none)
  | _, _ => ([.misuse], none)

def ofWord (word : String) : List Item × Option Setting :=
  match word.toList with
  | '-' :: '-' :: name => ofLongWord name
  | '-' :: c :: letters => ofLetters (c :: letters)
  | _ => ([.misuse], none)

/-- Whether a word can be the value of the setting before it. -/
def isValue (word : String) : Bool := word == "-" || ! Text.startsWith word "-"

/-- The items of a command line. After two dashes alone no option is read any more. -/
def items : List String → List Item
  | [] => []
  | word :: rest =>
    if word = "--" then rest.map fun _ => .misuse
    else
      match ofWord word with
      | (found, none) => found ++ items rest
      | (found, some s) =>
        match rest with
        | value :: rest => found ++ if isValue value then .setting s value :: items rest else [.misuse]
        | [] => found ++ [.misuse]

/-! ## Options -/

structure Options where
  root? : Option Path := none
  config? : Option Path := none
  mode? : Option Mode := none
  entryGlobs : List String := []
  scopePrefixes : List String := []
  output? : Option Path := none
  transitive? : Option Bool := none
  flags : List Flag := []
deriving DecidableEq

inductive Request where
  | run (o : Options)
  | help
  | version
  | misuse
deriving DecidableEq

namespace Options

def has (o : Options) (f : Flag) : Bool := o.flags.contains f

/-- A path that is given once; it cannot be empty. -/
def once? (given : Option Path) (value : String) : Option (Option Path) :=
  if given.isSome || value = "" then none else some (some ⟨value⟩)

def addSetting? (o : Options) (value : String) : Setting → Option Options
  | .root => (once? o.root? value).map fun root => { o with root? := root }
  | .config => (once? o.config? value).map fun config => { o with config? := config }
  | .output => (once? o.output? value).map fun output => { o with output? := output }
  | .mode =>
    match o.mode?, Mode.ofName? value with
    | none, some mode => some { o with mode? := some mode }
    | _, _ => none
  | .entry => some { o with entryGlobs := o.entryGlobs ++ [value] }
  | .scope => some { o with scopePrefixes := o.scopePrefixes ++ [value] }

/-- A flag counts once, but the two flags about transitivity take each other's place. -/
def addFlag? (o : Options) (f : Flag) : Option Options :=
  let choose (b : Bool) : Option Options :=
    if o.transitive? = some b then none else some { o with transitive? := some b }
  match f with
  | .transitive => choose true
  | .noTransitive => choose false
  | f => if o.has f then none else some { o with flags := f :: o.flags }

end Options

/-- Reads items from left to right. The first that asks for help or the version, or that cannot be
taken, decides. -/
def Request.ofItems : Options → List Item → Request
  | o, [] => if o.has .verbose && o.has .quiet then .misuse else .run o
  | _, .misuse :: _ => .misuse
  | _, .flag .help :: _ => .help
  | _, .flag .version :: _ => .version
  | o, .flag f :: rest =>
    match o.addFlag? f with
    | some o => ofItems o rest
    | none => .misuse
  | o, .setting s value :: rest =>
    match o.addSetting? value s with
    | some o => ofItems o rest
    | none => .misuse

def Request.ofWords (words : List String) : Request := .ofItems {} (items words)

end ModuleAtlas.CommandLine
