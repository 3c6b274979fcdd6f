import TextGrammar.Ron.Lexeme
import TextGrammar.KeyMap

/-!
# TextGrammar.RuleSet.Ron — rule sets as RON

A rule set is a map in braces whose values are strings, or strings in brackets or parentheses.  A
name may stand in front of parentheses, except one that is itself a value; and without a name,
parentheses with nothing between them are a value of their own, which is no rule.  A comma may also
stand behind the last entry of a map and the last item of a list.

Attributes may stand in front of the map.  They turn on extensions of the notation, none of which
changes what a rule set means.
-/

namespace TextGrammar

namespace Ron

/-- The names that are values, or begin a value that is no rule. -/
def valueNames : List Text := ["true", "false", "None", "Some", "inf", "NaN"].map String.toList

def extensionNames : List Text :=
  ["implicit_some", "unwrap_newtypes", "unwrap_variant_newtypes"].map String.toList

/-- What stands in an attribute in front of the names of extensions. -/
def attributeHead : List Lexeme :=
  [.numberSign, .exclamationMark, .openBracket, .name false "enable".toList, .openParen]

/-- The brackets around the items of a list. -/
inductive Bracket where
  | square
  | round
deriving DecidableEq, Repr

def Bracket.close : Bracket → Lexeme
  | square => .closeBracket
  | round => .closeParen

/-- How far a rule set has been read.  The items of a list are held last ones first. -/
inductive Reading where
  /-- An attribute is due, or the map. -/
  | start
  /-- Lexemes of the head of an attribute are due. -/
  | attributeStart (due : List Lexeme)
  /-- The name of an extension is due. -/
  | extension
  /-- The name of an extension is due, or the end of the names. -/
  | extensionOrEnd
  /-- A comma is due, or the end of the names. -/
  | extensionEnd
  /-- The end of an attribute is due. -/
  | attributeEnd
  /-- A key is due, or the end of the map. -/
  | key (set : RuleSet)
  /-- The colon behind a key is due. -/
  | colon (set : RuleSet) (key : Text)
  /-- The value of a key is due. -/
  | value (set : RuleSet) (key : Text)
  /-- The parentheses behind a name are due. -/
  | parens (set : RuleSet) (key : Text)
  /-- An item of a list is due, or its end. -/
  | item (set : RuleSet) (key : Text) (bracket : Bracket) (items : List Text)
  /-- A comma is due, or the end of the list. -/
  | itemEnd (set : RuleSet) (key : Text) (bracket : Bracket) (items : List Text)
  /-- A comma is due, or the end of the map. -/
  | valueEnd (set : RuleSet)
  | complete (set : RuleSet)

namespace Reading

def stepExtension (t : Text) : Option Reading :=
  if t ∈ extensionNames then some extensionEnd else none

def stepAttribute (due : List Lexeme) (l : Lexeme) : Option Reading :=
  match due with
  | [] => none
  | d :: due => if l ≠ d then none else some (if due = [] then extension else attributeStart due)

/-- Read a lexeme behind an item of a list, or in the place of one. -/
def endList (set : RuleSet) (key : Text) (bracket : Bracket) (items : List Text) (l : Lexeme) :
    Option Reading :=
  if l = bracket.close then some (valueEnd (set.insert key (.many items.reverse))) else none

def step : Reading → Lexeme → Option Reading
  | start, .openBrace => some (key ∅)
  | start, l => stepAttribute attributeHead l
  | attributeStart due, l => stepAttribute due l
  | extension, .name _ t => stepExtension t
  | extensionOrEnd, .name _ t => stepExtension t
  | extensionOrEnd, .closeParen => some attributeEnd
  | extensionEnd, .comma => some extensionOrEnd
  | extensionEnd, .closeParen => some attributeEnd
  | attributeEnd, .closeBracket => some start
  | key set, .string t => some (colon set t)
  | key set, .closeBrace => some (complete set)
  | colon set k, .colon => some (value set k)
  | value set k, .string t => some (valueEnd (set.insert k (.one t)))
  | value set k, .openBracket => some (item set k .square [])
  | value set k, .openParen => some (item set k .round [])
  | value set k, .name raw t => if !raw && t ∈ valueNames then none else some (parens set k)
  | parens set k, .openParen => some (item set k .round [])
  | parens set k, .unit => some (valueEnd (set.insert k (.many [])))
  | item set k bracket items, .string t => some (itemEnd set k bracket (t :: items))
  | item set k bracket items, l => endList set k bracket items l
  | itemEnd set k bracket items, .comma => some (item set k bracket items)
  | itemEnd set k bracket items, l => endList set k bracket items l
  | valueEnd set, .comma => some (key set)
  | valueEnd set, .closeBrace => some (complete set)
  | _, _ => none

def result? : Reading → Option RuleSet
  | complete set => some set
  | _ => none

end Reading

end Ron

/-- Read a rule set.  Of several entries with one key the last one counts. -/
def RuleSet.readRon (s : Text) : Option RuleSet := do
  let lexemes ← Ron.lexemes s
  let reading ← lexemes.foldlM Ron.Reading.step .start
  reading.result?

end TextGrammar
