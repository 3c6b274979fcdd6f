import TextGrammar.Json.Lexeme
import TextGrammar.KeyMap

/-!
# TextGrammar.RuleSet.Json — rule sets as JSON

A rule set is an object whose members are strings or lists of strings.  `RuleSet.readJson` reads the
lexemes of a text from left to right and refuses the text at the first one that does not fit.  A
member's value is read whole before its shape is looked at, and looked at before anything behind it
is read.  `RuleSet.writeJson` writes a rule set without blanks, in key order.
-/

namespace TextGrammar

namespace Json

/-! ### Shapes -/

def Value.string? : Value → Option Text
  | .string t => some t
  | _ => none

/-- The rule that a value stands for: a string is a single source, a list of strings a list of
alternatives. -/
def Value.rule? : Value → Option Rule
  | .string t => some (.one t)
  | .list items => (items.mapM Value.string?).map .many
  | _ => none

/-! ### Reading -/

/-- An open list or object with what has been read of it. -/
inductive Frame where
  /-- The object that holds the rules; `key` is the last key read. -/
  | rules (set : RuleSet) (key : Text)
  | list (items : List Value)
  | object (members : List (Text × Value)) (key : Text)

/-- What is due next. -/
inductive Due where
  | value
  /-- The first item of a list, or its end. -/
  | firstItem
  /-- Another item of a list. -/
  | nextItem
  /-- The first key of an object, or its end. -/
  | firstKey
  /-- Another key of an object. -/
  | nextKey
  | colon
  /-- A comma, or the end of the list or object. -/
  | separator
deriving DecidableEq, Repr

/-- How far a text has been read. -/
inductive Reading where
  /-- The open lists and objects, the innermost first, and what is due. -/
  | within (frames : List Frame) (due : Due)
  | complete (set : RuleSet)

/-- How many lists and objects may be open at once. -/
def maxOpen : Nat := 127

/-- What a whole value is when it stands alone. -/
def Value.found : Value → Found
  | .scalar s => .scalar s
  | .string t => .string t
  | .list _ => .sequence
  | .object _ => .sequence

/-- Put a whole value where it belongs. -/
def place (v : Value) : List Frame → Except Error Reading
  | [] => .error (.notObject v.found)
  | .rules set key :: below =>
    match v.rule? with
    | some rule => .ok (.within (.rules (set.insert key rule) key :: below) .separator)
    | none => .error .notRule
  | .list items :: below => .ok (.within (.list (items ++ [v]) :: below) .separator)
  | .object members key :: below =>
    .ok (.within (.object (members ++ [(key, v)]) key :: below) .separator)

def close : List Frame → Except Error Reading
  | [] => .error .trailingCharacters
  | .rules set _ :: _ => .ok (.complete set)
  | .list items :: below => place (.list items) below
  | .object members _ :: below => place (.object members) below

/-- A list or object begins. -/
def descend (frame : Frame) (due : Due) (frames : List Frame) : Except Error Reading :=
  if maxOpen ≤ frames.length then .error .tooDeep else .ok (.within (frame :: frames) due)

def readValue (frames : List Frame) : Lexeme → Except Error Reading
  | .scalar s => place (.scalar s) frames
  | .string t => place (.string t) frames
  -- the text as a whole must be an object
  | .openBracket =>
    if frames.isEmpty then .error (.notObject .sequence) else descend (.list []) .firstItem frames
  | .openBrace =>
    descend (if frames.isEmpty then .rules ∅ [] else .object [] []) .firstKey frames
  | .brokenString e => .error e
  | .brokenScalar e => .error e
  | _ => .error .expectedValue

def readKey : List Frame → Lexeme → Except Error Reading
  | .rules set _ :: below, .string t => .ok (.within (.rules set t :: below) .colon)
  | .object members _ :: below, .string t => .ok (.within (.object members t :: below) .colon)
  | _, .brokenString e => .error e
  | _, _ => .error .keyNotString

def readSeparator : List Frame → Lexeme → Except Error Reading
  | .list items :: below, .comma => .ok (.within (.list items :: below) .nextItem)
  | .list items :: below, .closeBracket => close (.list items :: below)
  | .list _ :: _, _ => .error .expectedCommaOrBracket
  | frames, .comma => .ok (.within frames .nextKey)
  | frames, .closeBrace => close frames
  | _, _ => .error .expectedCommaOrBrace

def Reading.step : Reading → Lexeme → Except Error Reading
  | .complete _, _ => .error .trailingCharacters
  | .within frames .value, l => readValue frames l
  | .within frames .firstItem, .closeBracket => close frames
  | .within frames .firstItem, l => readValue frames l
  | .within _ .nextItem, .closeBracket => .error .trailingComma
  | .within frames .nextItem, l => readValue frames l
  | .within frames .firstKey, .closeBrace => close frames
  | .within frames .firstKey, l => readKey frames l
  | .within _ .nextKey, .closeBrace => .error .trailingComma
  | .within frames .nextKey, l => readKey frames l
  | .within frames .colon, .colon => .ok (.within frames .value)
  | .within _ .colon, _ => .error .expectedColon
  | .within frames .separator, l => readSeparator frames l

def Reading.finish : Reading → Except Error RuleSet
  | .complete set => .ok set
  | .within _ .value => .error .endInValue
  | .within _ .firstItem => .error .endInList
  | .within _ .nextItem => .error .endInValue
  | .within _ .firstKey => .error .endInObject
  | .within _ .nextKey => .error .endInValue
  | .within _ .colon => .error .endInObject
  | .within (.list _ :: _) .separator => .error .endInList
  | .within _ .separator => .error .endInObject

/-! ### Writing -/

/-- A rule: a single source is a string, alternatives are a list. -/
def writeRule : Rule → Text
  | .one source => writeString source
  | .many sources => ['['] ++ Text.listed (sources.map writeString) ++ [']']

def writeMember (key : Text) (rule : Rule) : Text := writeString key ++ [':'] ++ writeRule rule

end Json

namespace RuleSet

/-- Read a rule set.  Of several members with one key the last one counts. -/
def readJson (s : Text) : Except Json.Error RuleSet := do
  let reading ← (Json.lexemes s).foldlM Json.Reading.step (.within [] .value)
  reading.finish

def writeJson (rules : RuleSet) : Text :=
  ['{'] ++ Text.listed (rules.entries.map fun e => Json.writeMember e.1 e.2) ++ ['}']

end RuleSet

end TextGrammar
