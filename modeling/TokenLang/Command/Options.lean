import TokenLang.Numeral

/-!
The options of the command line. Options come first; each begins with one or two
dashes, and its value follows after an equals sign or as the next argument. Two
dashes alone, or the first argument that is no option, end them.
-/

set_option autoImplicit false
set_option relaxedAutoImplicit false

namespace TokenLang.Command

structure Options where
  /-- The text to evaluate; an empty one counts as none. -/
  source : String
  strict : Bool
  /-- Zero stands for a seed of the program's own choice. -/
  seed : Int64
  logLevel : String
  files : List String
deriving DecidableEq, Inhabited

namespace Options

def default : Options := ⟨"", false, 0, "info", []⟩

/-- Why a command line is not run. -/
inductive Refusal where
  | help
  | bad
deriving DecidableEq, Inhabited

def bool? (text : String) : Option Bool :=
  if text ∈ ["1", "t", "T", "TRUE", "true", "True"] then some true
  else if text ∈ ["0", "f", "F", "FALSE", "false", "False"] then some false
  else none

/-- The base that a numeral announces, whether a prefix did so, and its digits. -/
def base (text : List Char) : Nat × Bool × List Char :=
  match text with
  | '0' :: c :: rest =>
    if c == 'x' || c == 'X' then (16, true, rest)
    else if c == 'b' || c == 'B' then (2, true, rest)
    else if c == 'o' || c == 'O' then (8, true, rest)
    else (8, true, c :: rest)
  | _ => (10, false, text)

def isDigitIn (base : Nat) (c : Char) : Bool := Numeral.isHex c && Numeral.digitValue c < base

/-- Whether underscores stand only between digits, or between a prefix and a digit. -/
def underscoresFit : Bool → List Char → Bool
  | _, [] => true
  | before, '_' :: rest =>
    before && (match rest with
      | c :: _ => c != '_'
      | [] => false) && underscoresFit false rest
  | _, _ :: rest => underscoresFit true rest

/-- An integer in the notation of its prefix, with underscores between digits. -/
def int? (text : String) : Option Int64 :=
  let (negative, body) := Numeral.splitSign text.toList
  let (base, announced, written) := base body
  let digits := written.filter (· != '_')
  let i := Numeral.signed negative (Numeral.ofDigits base digits)
  if Numeral.allDigits (isDigitIn base) digits && underscoresFit announced written &&
      Binary64.fitsInt64 i then some (Int64.ofInt i)
  else none

/-- Sets an option that takes a value. -/
def set (o : Options) (name value : String) : Except Refusal Options :=
  match name with
  | "e" => .ok { o with source := value }
  | "loglevel" => .ok { o with logLevel := value }
  | "seed" =>
    match int? value with
    | some i => .ok { o with seed := i }
    | none => .error .bad
  | _ => .error (if name = "help" ∨ name = "h" then .help else .bad)

def setStrict (o : Options) (value : String) : Except Refusal Options :=
  match bool? value with
  | some b => .ok { o with strict := b }
  | none => .error .bad

def isKnown (name : String) : Bool := name ∈ ["e", "loglevel", "seed"]

/-- The option that an argument spells: its name, and its value if it is attached.
Other arguments spell none. -/
def spelled? (arg : String) : Option (List Char × Option String) :=
  match arg.toList with
  | '-' :: '-' :: c :: rest => some (separate (c :: rest))
  | '-' :: '-' :: [] => none
  | '-' :: c :: rest => some (separate (c :: rest))
  | _ => none
where
  /-- An equals sign at the very front does not separate. -/
  separate (text : List Char) : List Char × Option String :=
    match text with
    | [] => ([], none)
    | c :: rest =>
      let (name, value) := Numeral.cut (· == '=') rest
      (c :: name, value.map String.ofList)

def parse (o : Options) : List String → Except Refusal Options
  | [] => .ok o
  | arg :: rest =>
    match spelled? arg with
    | none => .ok { o with files := if arg = "--" then rest else arg :: rest }
    | some (name, value) =>
      if name.head? = some '-' ∨ name.head? = some '=' then .error .bad
      else
        let name := String.ofList name
        if name = "strict" then do
          parse (← o.setStrict (value.getD "true")) rest
        else match value with
          | some value => do parse (← o.set name value) rest
          | none =>
            if isKnown name then
              match rest with
              | value :: rest => do parse (← o.set name value) rest
              | [] => .error .bad
            else do
              let _ ← o.set name ""
              .error .bad

end Options

end TokenLang.Command
