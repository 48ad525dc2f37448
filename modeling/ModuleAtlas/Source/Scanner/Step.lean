import ModuleAtlas.Source.Scanner.State

/-!
# Scanning

Each character takes a scan to its next state. A character that ends a token also starts the next
one, so nothing is looked at twice and nothing is looked up ahead.
-/

namespace ModuleAtlas.Source.Scanner

/-! ## Tokens and groups -/

def emit (s : Scanner) (t : Token) (due : Due) : Scanner :=
  { s with mode := .between, due := due, control := false, frame := s.frame.push t }

def emitTrivia (s : Scanner) (t : Token) : Scanner :=
  { s with mode := .between, frame := s.frame.push t }

def openGroup (s : Scanner) (shape : Shape) (due : Due) : Scanner :=
  { s with mode := .between, due := due, control := false, frame := ⟨shape, []⟩,
           outer := s.frame :: s.outer }

/-- The innermost group that a closing bracket fits and the groups around it. Groups left open
inside it are dissolved. -/
def fitting (c : Char) : Frame → List Frame → Option (Frame × Frame × List Frame)
  | _, [] => none
  | f, g :: outer =>
    if f.shape.closesWith c then some (f, g, outer)
    else if f.shape.isLoose then fitting c (g.absorb f) outer
    else none

/-- What is due behind a closed group. -/
def dueAfter : Shape → Due
  | .block | .round true => .statement
  | .angle => .callee
  | _ => .operator

def modeAfter : Shape → Mode
  | .substitution => .quoted '`' [] []
  | _ => .between

def closeGroup (s : Scanner) (f g : Frame) (outer : List Frame) : Scanner :=
  { s with mode := modeAfter f.shape, due := dueAfter f.shape, control := false,
           frame := g.push f.close, outer := outer }

def closeInnermost (s : Scanner) : Scanner :=
  match s.outer with
  | g :: outer => closeGroup s s.frame g outer
  | [] => s

/-- A closing bracket that fits no group is a mark. -/
def closeBracket (s : Scanner) (c : Char) : Scanner :=
  match fitting c s.frame s.outer with
  | some (f, g, outer) => closeGroup s f g outer
  | none => s.emit (.mark (String.singleton c)) .operator

/-- Takes back the reading of `<` as the start of a tag. -/
def dissolveTag (s : Scanner) : Scanner :=
  match s.outer with
  | g :: outer => { s with mode := .between, due := .operator, frame := g.absorb s.frame,
                           outer := outer }
  | [] => s

/-! ## The ends of words and marks -/

def dueAfterWord (due : Due) (w : String) : Due :=
  if due = .member then .operator
  else if w == "import" then .callee
  else if isPrefixWord w then .operand
  else if isStatementWord w then .statement
  else if due = .operator && isJoiningWord w then .operand
  else .operator

/-- In a tag the word `extends` behind the first name shows type parameters. -/
def endTagWord (s : Scanner) (w : String) : Scanner :=
  let before := s.frame.items.length
  let s := s.emit (.word w) .operator
  if w == "extends" && before == 1 then { s.dissolveTag with due := .operand } else s

def endWord (s : Scanner) (read : List Char) : Scanner :=
  let w := String.ofList read.reverse
  if s.frame.shape.isTag then s.endTagWord w
  else
    let control := s.due != .member && (isControl w || (s.control && w == "await"))
    { s.emit (.word w) (dueAfterWord s.due w) with control := control }

def afterLineBreak (s : Scanner) : Bool :=
  match s.frame.items with
  | .lineBreak :: _ => true
  | _ => false

def dueAfterMark (s : Scanner) (m : String) : Due :=
  match m with
  | "." | ".." => .member
  | "?." => if s.due = .callee then .callee else .member
  | "=>" | ">" | ";" => .statement
  | "++" | "--" => s.due
  | "!" => if s.due = .operator && ! s.afterLineBreak then .operator else .operand
  | _ => .operand

def endMark (s : Scanner) (m : String) : Scanner := s.emit (.mark m) (dueAfterMark s m)

/-! ## The start of a token -/

def startsOperand (due : Due) : Bool := due == .statement || due == .operand

def startWord (s : Scanner) (c : Char) : Scanner := { s with mode := .word [c] }

def startCode (s : Scanner) (c : Char) : Scanner :=
  if c == '\n' then s.emitTrivia .lineBreak
  else if isSpace c then s
  else if isWordChar c then s.startWord c
  else if c == '"' || c == '\'' || c == '`' then { s with mode := .quoted c [] [] }
  else if c == '/' then { s with mode := .slash }
  else if c == '\x7b' then
    if s.due = .operand then s.openGroup .object .operand else s.openGroup .block .statement
  else if c == '(' then s.openGroup (.round s.control) .operand
  else if c == '[' then s.openGroup .square .operand
  else if c == ')' || c == ']' || c == '\x7d' then s.closeBracket c
  else if c == '<' && (s.due == .callee || s.frame.shape == .angle) then s.openGroup .angle .operand
  else if c == '>' && s.frame.shape == .angle then s.closeBracket c
  else if c == '<' && s.dialect == .markup && startsOperand s.due then s.openGroup (.tag 0) .operand
  else if opensMark c then { s with mode := .mark (String.singleton c) }
  else s.endMark (String.singleton c)

/-! ## Elements -/

/-- The name of the element that a tag opens; a tag without a name opens a fragment. -/
def tagName (f : Frame) : String :=
  match f.items.getLast? with
  | some (.word w) => w
  | _ => ""

/-- Ends an opening tag. One that the text never closes holds type parameters instead. -/
def endOpeningTag (s : Scanner) : Scanner :=
  if s.closed.contains (tagName s.frame) then
    { s with mode := .between, frame := ⟨.element, [s.frame.close]⟩ }
  else { s.dissolveTag.emit (.mark ">") .statement with control := false }

/-- Only its name was read of a tag. -/
def onlyNamed (f : Frame) : Bool :=
  match f.items with
  | [.word _] => true
  | _ => false

def startTagPart (s : Scanner) (depth : Nat) (c : Char) : Scanner :=
  let deeper (n : Nat) : Scanner :=
    { s with frame := ⟨.tag n, .mark (String.singleton c) :: s.frame.items⟩ }
  if isSpace c then s
  else if isWordChar c then s.startWord c
  else if c == '"' || c == '\'' then { s with mode := .attribute c }
  else if c == '`' then { s with mode := .quoted c [] [] }
  else if c == '\x7b' then s.openGroup .embedded .operand
  else if c == '(' then s.openGroup (.round false) .operand
  else if c == '[' then s.openGroup .square .operand
  else if c == '/' then { s with mode := .slash }
  else if c == '<' then
    if 0 < depth || onlyNamed s.frame then deeper (depth + 1) else s.openGroup (.tag 0) .operand
  else if c == '>' then if 0 < depth then deeper (depth - 1) else s.endOpeningTag
  else if c == ')' || c == ']' || c == '\x7d' || c == ';' then s.dissolveTag.startCode c
  else if depth == 0 && (c == ',' || (c == '=' && onlyNamed s.frame)) then
    s.dissolveTag.startCode c
  else s.emit (.mark (String.singleton c)) .operator

/-- Inside an element only braces and tags interrupt the text. -/
def startElementPart (s : Scanner) (c : Char) : Scanner :=
  if c == '\x7b' then s.openGroup .embedded .operand
  else if c == '<' then { s with mode := .tagStart }
  else s

def start (s : Scanner) (c : Char) : Scanner :=
  match s.frame.shape with
  | .tag depth => s.startTagPart depth c
  | .element => s.startElementPart c
  | _ => s.startCode c

/-! ## Literals -/

/-- The pieces of a literal, newest first, with the fragment being read. -/
def pieces (earlier : List Piece) (fragment : List Char) : List Piece :=
  if fragment.isEmpty then earlier else .fragment fragment.reverse :: earlier

/-- The closing quote of a literal, or of a template with substitutions. -/
def endQuoted (s : Scanner) (quote : Char) (earlier : List Piece) (fragment : List Char) : Scanner :=
  if quote == '`' && s.frame.shape == .template then s.closeInnermost
  else s.emit (.literal ⟨quote == '`', (pieces earlier fragment).reverse⟩) .operator

/-- A line end ends a string that was not closed, which is then no literal. -/
def readQuoted (s : Scanner) (quote : Char) (earlier : List Piece) (fragment : List Char) (c : Char) :
    Scanner :=
  if c == quote then s.endQuoted quote earlier fragment
  else if c == '\\' then { s with mode := .escape quote (pieces earlier fragment) [] }
  else if c == '$' && quote == '`' then { s with mode := .dollar earlier fragment }
  else if quote != '`' && (c == '\n' || c == '\r') then (s.emit .value .operator).start c
  else { s with mode := .quoted quote earlier (c :: fragment) }

def openSubstitution (s : Scanner) : Scanner :=
  let s := if s.frame.shape == .template then s else s.openGroup .template .operand
  s.openGroup .substitution .operand

/-! ## One character -/

def readRegex (s : Scanner) (inClass escaped : Bool) (c : Char) : Scanner :=
  if c == '\n' || c == '\r' then (s.emit .value .operator).start c
  else if escaped then { s with mode := .regex inClass false }
  else if c == '\\' then { s with mode := .regex inClass true }
  else if c == '[' then { s with mode := .regex true false }
  else if c == ']' then { s with mode := .regex false false }
  else if c == '/' && ! inClass then { s with mode := .regexFlags }
  else { s with mode := .regex inClass false }

/-- A slash starts a comment, ends a tag, starts a regular expression or divides. -/
def readSlash (s : Scanner) (c : Char) : Scanner :=
  if c == '/' then { s with mode := .lineComment }
  else if c == '*' then { s with mode := .blockComment false }
  else if s.frame.shape.isTag then
    let s := { s with mode := .between }
    if c == '>' then s.closeInnermost else s.start c
  else if startsOperand s.due then s.readRegex false false c
  else (s.endMark "/").start c

def isCommentEnd (c : Char) : Bool := c == '\n' || c == '\r' || c == '\u2028' || c == '\u2029'

def advance (s : Scanner) (c : Char) : Scanner :=
  match s.mode with
  | .between => s.start c
  | .word read =>
    if continuesWord s.frame.shape.isTag read c then { s with mode := .word (c :: read) }
    else (s.endWord read).start c
  | .mark read =>
    if continuesMark read c then
      let m := read.push c
      if m == ".." then { s with mode := .mark m } else s.endMark m
    else (s.endMark read).start c
  | .slash => s.readSlash c
  | .lineComment => if isCommentEnd c then (s.emitTrivia .comment).start c else s
  | .blockComment afterStar =>
    if afterStar && c == '/' then s.emitTrivia .comment
    else { s with mode := .blockComment (c == '*') }
  | .quoted quote earlier fragment => s.readQuoted quote earlier fragment c
  | .dollar earlier fragment =>
    if c == '\x7b' then s.openSubstitution else s.readQuoted '`' earlier ('$' :: fragment) c
  | .escape quote earlier read =>
    if Escape.continues read c then { s with mode := .escape quote earlier (read ++ [c]) }
    else s.readQuoted quote (.escape read :: earlier) [] c
  | .regex inClass escaped => s.readRegex inClass escaped c
  | .regexFlags => if isWordChar c then s else (s.emit .value .operator).start c
  | .attribute quote => if c == quote then s.emit .value .operator else s
  | .tagStart =>
    if c == '/' then { s with mode := .closingTag }
    else (s.openGroup (.tag 0) .operand).start c
  | .closingTag => if c == '>' then s.closeInnermost else s

/-! ## The whole text -/

/-- Ends the token at the end of the text; a literal without its quote is none. -/
def finishToken (s : Scanner) : Scanner :=
  match s.mode with
  | .word read => s.endWord read
  | .mark read => s.endMark read
  | .slash => s.endMark "/"
  | .lineComment => s.emitTrivia .comment
  | .regex _ _ | .regexFlags => s.emit .value .operator
  | _ => s

def finish (s : Scanner) : List Token :=
  let s := s.finishToken
  (s.outer.foldl (fun inner f => f.absorb inner) s.frame).items.reverse

def closedNames : List Char → List String
  | [] => []
  | '<' :: '/' :: rest =>
    let name := (rest.dropWhile isSpace).takeWhile (continuesWord true [] ·)
    String.ofList name :: closedNames ('/' :: rest)
  | _ :: rest => closedNames rest

def withoutShebang : List Char → List Char
  | '#' :: '!' :: rest => rest.dropWhile (· != '\n')
  | text => text

def initial (dialect : Dialect) (text : List Char) : Scanner :=
  ⟨dialect, if dialect = .markup then closedNames text else [], .between, .statement, false,
    ⟨.file, []⟩, []⟩

def tokens (dialect : Dialect) (text : List Char) : List Token :=
  ((withoutShebang text).foldl advance (initial dialect text)).finish

end ModuleAtlas.Source.Scanner
