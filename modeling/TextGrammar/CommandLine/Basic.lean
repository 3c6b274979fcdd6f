import TextGrammar.Grammar.Basic
import TextGrammar.Grammar.Resolve
import TextGrammar.RuleSet.Edit

/-!
# TextGrammar.CommandLine — expanding a text from the command line

The program loads a rule set from a file or from standard input, builds one grammar with the English
modifiers, and writes the expansion of a text as often as it is asked to, one a line.  A report is all
that it writes; it keeps no log of what it does.

Arguments are read from left to right.  A flag takes whatever argument follows it as its value, and
the last value of a flag counts.  The first argument that asks for help or does not fit decides the
result, whatever follows it.
-/

namespace TextGrammar

namespace CommandLine

/-! ### Arguments -/

/-- A flag that takes a value. -/
inductive Flag where
  | rules | origin | seed | count
deriving DecidableEq, Repr

def Flag.text : Flag → Text
  | rules => "--rules".toList
  | origin => "--origin".toList
  | seed => "--seed".toList
  | count => "--count".toList

def Flag.all : List Flag := [rules, origin, seed, count]

def Flag.ofText? (argument : Text) : Option Flag := all.find? fun f => f.text = argument

/-- What the program is asked to expand. -/
structure Options where
  /-- The path of a rule set; without one it comes from standard input. -/
  rules : Option Text := none
  /-- The text to expand. -/
  origin : Text := "#origin#".toList
  /-- The seed of the choices; without one the clock gives it. -/
  seed : Option UInt64 := none
  /-- How often the text is expanded. -/
  count : Nat := 1
deriving DecidableEq, Repr

/-- What is wrong with the arguments. -/
inductive ArgumentError where
  /-- An argument that is no flag, or a flag without a value. -/
  | unknown (argument : Text)
  /-- The value of a flag is no integer of 64 bits. -/
  | notInteger (flag : Flag) (value : Text)
deriving DecidableEq, Repr

def ArgumentError.message : ArgumentError → Text
  | unknown argument => "unknown argument: ".toList ++ argument
  | notInteger flag value => flag.text ++ " must be an integer, got '".toList ++ value ++ ['\'']

/-- What the arguments ask for. -/
inductive Request where
  | help
  | expand (o : Options)
deriving DecidableEq, Repr

def isHelp (argument : Text) : Bool := argument = "--help".toList || argument = "-h".toList

/-- The digits of a number that may have a plus sign. -/
def dropPlus : Text → Text
  | '+' :: digits => digits
  | digits => digits

/-- The number that decimal digits write, of which there is at least one, behind a plus sign or none.
It must fit 64 bits. -/
def readInteger? (value : Text) : Option Nat :=
  let digits := dropPlus value
  if digits ≠ [] ∧ digits.all Char.isDigit ∧ decimalValue digits < UInt64.size then
    some (decimalValue digits)
  else none

def Options.set (o : Options) (value : Text) : Flag → Except ArgumentError Options
  | .rules => .ok { o with rules := some value }
  | .origin => .ok { o with origin := value }
  | .seed =>
    match readInteger? value with
    | some n => .ok { o with seed := some (UInt64.ofNat n) }
    | none => .error (.notInteger .seed value)
  | .count =>
    match readInteger? value with
    | some n => .ok { o with count := n }
    | none => .error (.notInteger .count value)

def Options.read (o : Options) : List Text → Except ArgumentError Request
  | [] => .ok (.expand o)
  | [argument] => if isHelp argument then .ok .help else .error (.unknown argument)
  | argument :: value :: rest =>
    if isHelp argument then .ok .help
    else
      match Flag.ofText? argument with
      | none => .error (.unknown argument)
      | some flag => do
        let o ← o.set value flag
        o.read rest

/-- Read the arguments that follow the program's name. -/
def readArguments (arguments : List Text) : Except ArgumentError Request :=
  Options.read {} arguments

end CommandLine

/-! ### Runs of the program -/

/-- Read a text and evaluate it a number of times on one grammar. -/
def Run.flattenTimes (nesting : Nat) (source : Text) : (count : Nat) → Run (List Text)
  | 0 => pure []
  | count + 1 => do
    let text ← Run.flatten nesting source
    let texts ← Run.flattenTimes nesting source count
    return text :: texts

namespace CommandLine

/-- What a program run leaves behind. -/
structure Report where
  code : Nat
  /-- What is written to standard output. -/
  output : Text
  /-- What is written to standard error. -/
  complaint : Text
deriving DecidableEq, Repr

def line (t : Text) : Text := t ++ ['\n']

def usage : Text :=
  ("Usage: tracery [--rules <file.json|file.ron>] [--origin <expr>] [--seed <n>] " ++
    "[--count <n>]").toList

def failure (complaint : Text) : Report := ⟨1, [], complaint⟩

/-- The rule set on standard input; blank input holds none. -/
def readInput (bytes : ByteArray) : Except RuleSet.Error (Option RuleSet) := do
  let s ← (decodeText bytes).mapError .file
  if s.all isBlank then return none
  return some (← RuleSet.Format.json.read s)

/-- The rule set that the options name.  Standard input counts only where no path is given, and not
where it is a terminal, so that it holds no bytes. -/
def readRules (o : Options) (files : Files) (input : Option ByteArray) :
    Except RuleSet.Error (Option RuleSet) :=
  match o.rules, input with
  | some path, _ => do return some (← RuleSet.load files path)
  | none, some bytes => readInput bytes
  | none, none => .ok none

def settings (o : Options) (rules : Option RuleSet) : List Setting :=
  .english :: (o.seed.map Setting.seed).toList ++ (rules.map Setting.rules).toList

/-- Expand the origin as often as the options say.  `none` when an expansion nests too deep. -/
def expand (nesting : Nat) (o : Options) (rules : Option RuleSet) (clock : UInt64) :
    Option Report := do
  let g := Grammar.build (settings o rules) clock
  let outcome ← Run.flattenTimes nesting o.origin o.count (fun _ => false) g
  return ⟨0, outcome.value.flatMap line, []⟩

/-- What a run of the program comes to before anything is expanded. -/
inductive Plan where
  /-- All there is to report. -/
  | report (r : Report)
  /-- Something to expand, with the rules that have been loaded. -/
  | expand (o : Options) (rules : Option RuleSet)

/-- Read the arguments, and then the rules that they name. -/
def plan (arguments : List Text) (files : Files) (input : Option ByteArray) : Plan :=
  match readArguments arguments with
  | .error e => .report (failure (line ("Error: ".toList ++ e.message) ++ line usage))
  | .ok .help => .report ⟨0, line usage, []⟩
  | .ok (.expand o) =>
    match readRules o files input with
    | .error e => .report (failure (line ("Error: failed to load rule set: ".toList ++ e.message)))
    | .ok rules => .expand o rules

/-- Run the program.  `none` when an expansion nests too deep. -/
def run (nesting : Nat) (arguments : List Text) (files : Files) (input : Option ByteArray)
    (clock : UInt64) : Option Report :=
  match plan arguments files input with
  | .report r => some r
  | .expand o rules => expand nesting o rules clock

end CommandLine

end TextGrammar
