import TextGrammar.Text.Basic

/-!
# TextGrammar.Ron.Lexeme — the lexemes of a RON text

Of the object notation RON, rule sets use brackets of all three kinds, colons, commas, strings and
names, and a number sign and an exclamation mark begin an attribute.  Blanks and comments may stand
between them, and block comments nest.  A string has escapes, or it is raw and ends at the first
quote that as many number signs follow as it began with.  A raw name stands behind `r#` and may have
more characters than others.  `Ron.Mode` says where in the text a reader is, and `Ron.Mode.step`
reads one character.
-/

namespace TextGrammar.Ron

/-- A lexeme of a RON text. -/
inductive Lexeme where
  | openBrace
  | closeBrace
  | openBracket
  | closeBracket
  | openParen
  | closeParen
  /-- Parentheses with nothing between them, not even a blank. -/
  | unit
  | colon
  | comma
  | numberSign
  | exclamationMark
  | string (t : Text)
  | name (raw : Bool) (t : Text)
deriving DecidableEq, Repr

/-- Where in a text a reader is.  The characters read of a string or name are held last ones first. -/
inductive Mode where
  | between
  /-- Behind the first character of a comment. -/
  | slash
  | lineComment
  /-- In a block comment inside of `outer` others. -/
  | blockComment (outer : Nat)
  /-- In a block comment, behind a slash. -/
  | blockSlash (outer : Nat)
  /-- In a block comment, behind a star. -/
  | blockStar (outer : Nat)
  /-- In a string, behind the characters read. -/
  | string (read : Text)
  /-- In a string, behind a backslash. -/
  | backslash (read : Text)
  /-- In a two-digit escape, behind the first digit if there is one. -/
  | byte (read : Text) (high : Option Nat)
  /-- Behind the letter of a code point escape. -/
  | brace (read : Text)
  /-- In a code point escape, behind `count` digits of value `value`. -/
  | codePoint (read : Text) (count value : Nat)
  /-- Behind the letter of a raw string or name and some number signs. -/
  | rawStart (signs : Nat)
  /-- In a raw string, behind the characters read.  Behind a quote and number signs, `due` is how many
  more number signs would end the string. -/
  | raw (signs : Nat) (due : Option Nat) (read : Text)
  /-- In a name, behind the characters read. -/
  | name (raw : Bool) (read : Text)
  /-- Behind an opening parenthesis. -/
  | paren
deriving DecidableEq, Repr

def beginsName (c : Char) : Bool := c.isAlpha || c = '_'

def isInName (raw : Bool) (c : Char) : Bool :=
  c.isAlphanum || c = '_' || raw && (c = '.' || c = '+' || c = '-')

def unescape? (c : Char) : Option Char :=
  match c with
  | '\'' => some '\''
  | '"' => some '"'
  | '\\' => some '\\'
  | 'n' => some '\n'
  | 'r' => some '\r'
  | 't' => some '\t'
  | '0' => some '\x00'
  | _ => none

/-- The character with a code point, unless it is a surrogate or too large. -/
def charOf? (n : Nat) : Option Char := if n.isValidChar then some (Char.ofNat n) else none

namespace Mode

def stepBetween (c : Char) : Option (Mode × List Lexeme) :=
  if c.isWhitespace then some (between, [])
  else
    match c with
    | '{' => some (between, [.openBrace])
    | '}' => some (between, [.closeBrace])
    | '[' => some (between, [.openBracket])
    | ']' => some (between, [.closeBracket])
    | '(' => some (paren, [])
    | ')' => some (between, [.closeParen])
    | ':' => some (between, [.colon])
    | ',' => some (between, [.comma])
    | '#' => some (between, [.numberSign])
    | '!' => some (between, [.exclamationMark])
    | '"' => some (string [], [])
    -- a raw string, a raw name, or the first letter of a name
    | 'r' => some (rawStart 0, [])
    | '/' => some (slash, [])
    | _ => if beginsName c then some (name false [c], []) else none

/-- Read a character that a lexeme ends in front of. -/
def stepBehind (l : Lexeme) (c : Char) : Option (Mode × List Lexeme) :=
  (stepBetween c).map fun (mode, completed) => (mode, l :: completed)

def stepName (isRaw : Bool) (read : Text) (c : Char) : Option (Mode × List Lexeme) :=
  if isInName isRaw c then some (name isRaw (c :: read), [])
  else stepBehind (.name isRaw read.reverse) c

def stepComment (outer : Nat) (c : Char) : Mode :=
  if c = '/' then blockSlash outer else if c = '*' then blockStar outer else blockComment outer

def endComment : (outer : Nat) → Mode
  | 0 => between
  | outer + 1 => blockComment outer

def stepEscape (read : Text) (c : Char) : Option Mode :=
  if c = 'x' then some (byte read none)
  else if c = 'u' then some (brace read)
  else (unescape? c).map fun d => string (d :: read)

/-- Read a character of a code point escape, which has one to six digits. -/
def stepCodePoint (read : Text) (count value : Nat) (c : Char) : Option Mode :=
  if c = '}' then
    if count = 0 then none else (charOf? value).map fun d => string (d :: read)
  else if count < 6 then (hexValue? c).map fun d => codePoint read (count + 1) (value * 16 + d)
  else none

/-- Read a character behind the letter of a raw string or name.  One number sign begins a raw name
when a character of a name follows it; the letter alone is itself a name, or begins one. -/
def stepRawStart (signs : Nat) (c : Char) : Option (Mode × List Lexeme) :=
  if c = '#' then some (rawStart (signs + 1), [])
  else if c = '"' then some (raw signs none [], [])
  else if signs = 0 then stepName false ['r'] c
  else if signs = 1 && isInName true c then some (name true [c], [])
  else none

/-- A raw string goes on unless no number sign is due any more; then the quote and the number signs at
its end do not belong to it. -/
def closeRaw (signs due : Nat) (read : Text) : Mode × List Lexeme :=
  if due = 0 then (between, [.string (read.drop (signs + 1)).reverse])
  else (raw signs (some due) read, [])

def stepRaw (signs : Nat) (due : Option Nat) (read : Text) (c : Char) : Mode × List Lexeme :=
  if c = '"' then closeRaw signs signs (c :: read)
  else
    match due with
    | some due =>
      if c = '#' then closeRaw signs (due - 1) (c :: read) else (raw signs none (c :: read), [])
    | none => (raw signs none (c :: read), [])

/-- Read one character: where the reader is behind it, and the lexemes that it completes. -/
def step : Mode → Char → Option (Mode × List Lexeme)
  | between, c => stepBetween c
  | slash, c =>
    if c = '/' then some (lineComment, []) else if c = '*' then some (blockComment 0, []) else none
  | lineComment, c => some (if c = '\n' then between else lineComment, [])
  | blockComment outer, c => some (stepComment outer c, [])
  | blockSlash outer, c =>
    some (if c = '*' then blockComment (outer + 1) else stepComment outer c, [])
  | blockStar outer, c => some (if c = '/' then endComment outer else stepComment outer c, [])
  | string read, c =>
    if c = '"' then some (between, [.string read.reverse])
    else if c = '\\' then some (backslash read, [])
    else some (string (c :: read), [])
  | backslash read, c => (stepEscape read c).map (·, [])
  | byte read none, c => (hexValue? c).map fun d => (byte read (some d), [])
  | byte read (some high), c =>
    (hexValue? c).map fun d => (string (Char.ofNat (high * 16 + d) :: read), [])
  | brace read, c => if c = '{' then some (codePoint read 0 0, []) else none
  | codePoint read count value, c => (stepCodePoint read count value c).map (·, [])
  | rawStart signs, c => stepRawStart signs c
  | raw signs due read, c => some (stepRaw signs due read c)
  | name isRaw read, c => stepName isRaw read c
  | paren, c => if c = ')' then some (between, [.unit]) else stepBehind .openParen c

/-- The lexemes that the end of the text completes; `none` where the text may not end. -/
def finish : Mode → Option (List Lexeme)
  | between => some []
  | lineComment => some []
  | rawStart 0 => some [.name false ['r']]
  | name isRaw read => some [.name isRaw read.reverse]
  | paren => some [.openParen]
  | _ => none

end Mode

/-- The lexemes of a text that is read from a given place on; `none` when something else stands in
it, or when it ends inside a lexeme or comment. -/
def lexemesFrom : Mode → Text → Option (List Lexeme)
  | mode, [] => mode.finish
  | mode, c :: rest => do
    let (mode, completed) ← mode.step c
    let others ← lexemesFrom mode rest
    return completed ++ others

def lexemes (s : Text) : Option (List Lexeme) := lexemesFrom .between s

end TextGrammar.Ron
