import RankedGrammar.Text.Blank

/-!
The command line. Options come first and are read from left to right; the first argument that is
no option begins the input, and so does what follows a double dash.
-/
namespace RankedGrammar.Command

inductive Valued where
  | rule
  | maxDepth
  | input
deriving DecidableEq

def Valued.all : List Valued := [.rule, .maxDepth, .input]

def Valued.name : Valued → String
  | rule => "--rule"
  | maxDepth => "--max-depth"
  | input => "--input"

inductive UsageError where
  | missingValue (o : Valued)
  | invalidDepth (value : String)
  | repeatedInput
  | unknownOption (arg : String)
deriving DecidableEq

def UsageError.message : UsageError → String
  | missingValue o => "error: " ++ o.name ++ " expects a value"
  | invalidDepth value =>
    "error: invalid --max-depth '" ++ value ++ "' (expected a positive integer)"
  | repeatedInput => "error: input provided multiple times"
  | unknownOption arg => "error: unknown option '" ++ arg ++ "'"

/-- What an argument is where an option may stand. -/
inductive Argument where
  | help
  | version
  | color (on : Bool)
  | trace
  | raw
  /-- An option whose value is the next argument. -/
  | valued (o : Valued)
  /-- An option with its value after an equals sign. -/
  | assigned (o : Valued) (value : String)
  | doubleDash
  | unknown
  | word
deriving DecidableEq

/-- Drops `start` from the front as often as it stands there, at most `fuel` times. -/
def dropRepeated (start : List Char) : Nat → List Char → List Char
  | 0, cs => cs
  | fuel + 1, cs =>
    if start.isPrefixOf cs then dropRepeated start fuel (cs.drop start.length) else cs

/-- The value in an argument that begins with the option and an equals sign. The option and the
sign may be repeated before the value. -/
def Valued.assigned? (o : Valued) (arg : List Char) : Option String :=
  let start := (o.name ++ "=").toList
  if start.isPrefixOf arg then some (String.ofList (dropRepeated start arg.length arg)) else none

def Argument.ofString (arg : String) : Argument :=
  if arg = "-h" ∨ arg = "--help" then help
  else if arg = "-V" ∨ arg = "--version" then version
  else if arg = "--color" then color true
  else if arg = "--no-color" then color false
  else if arg = "--trace" then trace
  else if arg = "--raw" then raw
  else if arg = "-r" ∨ arg = "--rule" then valued .rule
  else if arg = "--max-depth" then valued .maxDepth
  else if arg = "-i" ∨ arg = "--input" then valued .input
  else if arg = "--" then doubleDash
  else
    match Valued.all.findSome? fun o => (o.assigned? arg.toList).map (assigned o) with
    | some a => a
    | none => if ['-'].isPrefixOf arg.toList then unknown else word

structure Settings where
  /-- The text to parse; without it the standard input is read. -/
  input : Option String
  rule : String
  maxDepth : Nat
  trace : Bool
  raw : Bool
  color : Bool
deriving DecidableEq

/-- The value of decimal digits read after `n`. -/
def digitsValue? : Nat → List Char → Option Nat
  | n, [] => some n
  | n, c :: cs => if c.isDigit then digitsValue? (10 * n + (c.toNat - 48)) cs else none

/-- A positive integer below 2^64 in decimal digits, perhaps after a plus sign. -/
def depth? (value : String) : Option Nat :=
  let digits :=
    match value.toList with
    | '+' :: cs => cs
    | cs => cs
  if digits.isEmpty then none
  else (digitsValue? 0 digits).filter fun n => 0 < n && n < 0x10000000000000000

namespace Settings

def initial (color : Bool) : Settings where
  input := none
  rule := "SCRIPT"
  maxDepth := 256
  trace := false
  raw := false
  color := color

/-- Sets the input, which is possible once. -/
def setInput (s : Settings) (text : String) : Except UsageError Settings :=
  if s.input.isSome then .error .repeatedInput else .ok { s with input := some text }

def assign (s : Settings) (o : Valued) (value : String) : Except UsageError Settings :=
  match o with
  | .rule => .ok { s with rule := value }
  | .maxDepth =>
    match depth? value with
    | some maxDepth => .ok { s with maxDepth }
    | none => .error (.invalidDepth value)
  | .input => s.setInput value

/-- What follows a double dash is the input unless it is blank. -/
def setRest (s : Settings) (args : List String) : Except UsageError Settings :=
  let rest := " ".intercalate args
  if rest.toList.all Text.isBlank then .ok s else s.setInput rest

end Settings

inductive Request where
  | help
  | version
  | parse (s : Settings)
deriving DecidableEq

def Request.read (s : Settings) : List String → Except UsageError Request
  | [] => .ok (.parse s)
  | arg :: args =>
    match Argument.ofString arg with
    | .help => .ok .help
    | .version => .ok .version
    | .color on => read { s with color := on } args
    | .trace => read { s with trace := true } args
    | .raw => read { s with raw := true } args
    | .valued o =>
      match args with
      | [] => .error (.missingValue o)
      | value :: args =>
        match s.assign o value with
        | .ok s => read s args
        | .error e => .error e
    | .assigned o value =>
      match s.assign o value with
      | .ok s => read s args
      | .error e => .error e
    | .doubleDash => (s.setRest args).map .parse
    | .unknown => .error (.unknownOption arg)
    | .word => (s.setInput (" ".intercalate (arg :: args))).map .parse

/-- Reads a command line, `color` being the choice where no option makes one. -/
def Request.ofArguments (color : Bool) (args : List String) : Except UsageError Request :=
  read (.initial color) args

end RankedGrammar.Command
