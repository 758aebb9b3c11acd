import TokenLang.Lexeme
import TokenLang.Text.Source

/-!
The scanner, an automaton that is fed one character at a time. Between two units
it rests in `State.default`; every other state says which unit it is inside of and
where that unit began. A scan of two texts one after the other is therefore a scan
of the second from where the first one left off.
-/

set_option autoImplicit false
set_option relaxedAutoImplicit false

namespace TokenLang.Lexeme.Scan

/-- Characters that separate units and belong to none. -/
def isSeparator (c : Char) : Bool :=
  c == ' ' || c == '\t' || c == '\n' || c == '\r' || c == ',' || c == '\x0b' || c == '\x0c'

def isOpening (c : Char) : Bool := c == '(' || c == '[' || c == '\x7b'

def isClosing (c : Char) : Bool := c == ')' || c == ']' || c == '\x7d'

def isQuoteMark (c : Char) : Bool := c == '\x27' || c == '\x22'

/-- The mark on both sides of a character literal. -/
def charMark : Char := '\x60'

/-- Characters that end a word or a mode without being part of it. -/
def breaksWord (c : Char) : Bool :=
  isSeparator c || isOpening c || isClosing c || isQuoteMark c ||
    c == ':' || c == '@' || c == ';' || c == '#' || c == '~'

/-- What a character after a backslash stands for. -/
def escape? (c : Char) : Option Char :=
  match c with
  | 'n' => some '\n'
  | 't' => some '\t'
  | 'r' => some '\r'
  | 'b' => some '\x08'
  | 'f' => some '\x0c'
  | '0' => some '\x00'
  | '\\' => some '\\'
  | '\x27' => some '\x27'
  | '\x22' => some '\x22'
  | _ => if c = charMark then some charMark else none

/-- Where the scanner is. Texts collected so far are kept last character first. -/
inductive State where
  | default
  | word (start : Position) (seen : List Char)
  | lineComment
  /-- A run of tildes that may open a block comment. -/
  | tildes (start : Position) (count : Nat)
  /-- Inside a block comment opened by `count` tildes, `matched` characters into
  its closing mark. -/
  | blockComment (start : Position) (count matched : Nat)
  | hash (start : Position)
  | mode (start : Position) (seen : List Char)
  | string (start : Position) (mode : String) (mark : Char) (seen : List Char)
  | stringEscape (start : Position) (mode : String) (mark : Char) (seen : List Char)
  | char (start : Position)
  | charEscape (start : Position)
  | charEnd (start : Position) (c : Char)
  | failed (e : Error)
deriving DecidableEq, Inhabited

/-- The text collected last character first. -/
def collected (seen : List Char) : String := String.ofList seen.reverse

/-- The step from a place between two units: the next state and what is emitted. -/
def leave (p : Position) (c : Char) : State × List Lexeme :=
  if isSeparator c then (.default, [])
  else if isOpening c then (.default, [⟨.opening, c.toString, "", c.toString, p⟩])
  else if isClosing c then (.default, [⟨.closing, c.toString, "", c.toString, p⟩])
  else if isQuoteMark c then (.string p "" c [], [])
  else if c = charMark then (.char p, [])
  else if c = ':' then (.default, [⟨.quote, ":", "", "", p⟩])
  else if c = '@' then (.default, [⟨.unquote, "@", "", "", p⟩])
  else if c = ';' then (.lineComment, [])
  else if c = '#' then (.hash p, [])
  else if c = '~' then (.tildes p 1, [])
  else (.word p [c], [])

/-- The step inside a mode tag: it must end at a bracket or a quote mark. -/
def extendMode (start : Position) (seen : List Char) (c : Char) : State × List Lexeme :=
  if !breaksWord c then (.mode start (c :: seen), [])
  else if isOpening c then
    (.default, [⟨.opening, c.toString, collected seen, c.toString, start⟩])
  else if isQuoteMark c then (.string start (collected seen) c [], [])
  else (.failed ⟨.danglingMode, start⟩, [])

/-- The step inside a block comment. Its closing mark is a slash and as many
tildes as opened it, so a slash is always the first character of a possible match. -/
def extendComment (start : Position) (count matched : Nat) (c : Char) : State :=
  if c = '/' then .blockComment start count 1
  else if c = '~' && 0 < matched then
    if matched = count then .default else .blockComment start count (matched + 1)
  else .blockComment start count 0

/-- One character at a place, in any state. -/
def next (p : Position) (c : Char) : State → State × List Lexeme
  | .default => leave p c
  | .word start seen =>
    if breaksWord c then
      let (state, units) := leave p c
      (state, ⟨.word, collected seen, "", "", start⟩ :: units)
    else (.word start (c :: seen), [])
  | .lineComment => if c = '\n' then leave p c else (.lineComment, [])
  | .tildes start count =>
    if c = '~' then (.tildes start (count + 1), [])
    else if c = '/' then (.blockComment start count 0, [])
    else (.failed ⟨.unexpectedChar, start⟩, [])
  | .blockComment start count matched => (extendComment start count matched c, [])
  | .hash start =>
    if c = '!' then (.lineComment, [])
    else if c = '~' then (.mode start [], [])
    else extendMode start [] c
  | .mode start seen => extendMode start seen c
  | .string start mode mark seen =>
    if c = mark then (.default, [⟨.string, collected seen, mode, mark.toString, start⟩])
    else if c = '\\' then (.stringEscape start mode mark seen, [])
    else (.string start mode mark (c :: seen), [])
  | .stringEscape start mode mark seen =>
    match escape? c with
    | some e => (.string start mode mark (e :: seen), [])
    | none => (.string start mode mark (c :: '\\' :: seen), [])
  | .char start => if c = '\\' then (.charEscape start, []) else (.charEnd start c, [])
  | .charEscape start => (.charEnd start ((escape? c).getD c), [])
  | .charEnd start r =>
    if c = charMark then (.default, [⟨.char, r.toString, "", charMark.toString, start⟩])
    else (.failed ⟨.unterminatedChar, start⟩, [])
  | .failed e => (.failed e, [])

/-- The end of the text at a place, in any state: what is emitted last, or the
fault of the unit that is not complete. -/
def finish (p : Position) : State → Except Error (List Lexeme)
  | .default | .lineComment => .ok [⟨.finish, "", "", "", p⟩]
  | .word start seen =>
    .ok [⟨.word, collected seen, "", "", start⟩, ⟨.finish, "", "", "", p⟩]
  | .tildes start _ => .error ⟨.unexpectedChar, start⟩
  | .blockComment start _ _ => .error ⟨.unterminatedComment, start⟩
  | .hash start | .mode start _ => .error ⟨.danglingMode, start⟩
  | .string start _ _ _ | .stringEscape start _ _ _ => .error ⟨.unterminatedString, start⟩
  | .char start | .charEscape start | .charEnd start _ => .error ⟨.unterminatedChar, start⟩
  | .failed e => .error e

/-- A scan under way: the place of the next character, the state, and the units
emitted so far, last first. -/
structure Progress where
  position : Position
  state : State
  emitted : List Lexeme
deriving DecidableEq, Inhabited

def Progress.start : Progress := ⟨.start, .default, []⟩

def Progress.feed (s : Progress) (c : Char) : Progress :=
  let (state, units) := next s.position c s.state
  ⟨s.position.advance c, state, units.reverse ++ s.emitted⟩

/-- The units of a text, with the fault that ended the scan if there was one. -/
structure Outcome where
  units : List Lexeme
  error : Option Error
deriving DecidableEq, Inhabited

def Progress.outcome (s : Progress) : Outcome :=
  match finish s.position s.state with
  | .ok units => ⟨s.emitted.reverse ++ units, none⟩
  | .error e => ⟨s.emitted.reverse, some e⟩

def scan (source : List Char) : Outcome := (source.foldl Progress.feed .start).outcome

end TokenLang.Lexeme.Scan

namespace TokenLang.Lexeme

/-- All units of a text, or the first fault in it. -/
def read (source : List Char) : Except Error (List Lexeme) :=
  match Scan.scan source with
  | ⟨units, none⟩ => .ok units
  | ⟨_, some e⟩ => .error e

end TokenLang.Lexeme
