import TextGrammar.Json.Basic

/-!
# TextGrammar.Json.Lexeme — the lexemes of a JSON text

A text falls into brackets, commas, colons, strings and other scalars, with blanks between them.  A
lexeme that is itself wrong carries its error; whether the error counts depends on what is due where
the lexeme stands.

A number without fraction and exponent is an integer if it fits 64 bits.  All others are floating
point numbers: the leading digits that fit 64 bits are scaled by a power of ten.

`Json.readString` reads a string behind its opening quote, one character at a time; `Escape` says how
far an escape has been read.  `Json.writeString` writes the shortest legal form.
-/

namespace TextGrammar.Json

/-! ### Numbers -/

/-- The digits at the front of a text, and the text behind them. -/
def spanDigits (s : Text) : Text × Text := (s.takeWhile Char.isDigit, s.dropWhile Char.isDigit)

/-- Append digits to a number as long as it fits 64 bits: the number, and how many digits it took. -/
def gather (n : Nat) : Text → Nat × Nat
  | [] => (n, 0)
  | c :: rest =>
    let next := n * 10 + digitValue c
    if next < UInt64.size then
      ((gather next rest).1, (gather next rest).2 + 1)
    else (n, 0)

/-- Scale by a power of ten.  A power that is too small is reached in steps, of which two bring any
64-bit number down to zero; the number must stay finite. -/
def scale (steps : Nat) (f : Float) (exponent : Int) : Except Error Float :=
  if exponent.natAbs ≤ 308 then
    let power := Float.ofScientific 1 false exponent.natAbs
    if 0 ≤ exponent then
      if (f * power).isInf then .error .numberOutOfRange else .ok (f * power)
    else .ok (f / power)
  else if f == 0 then .ok f
  else if 0 ≤ exponent then .error .numberOutOfRange
  else
    match steps with
    | 0 => .ok f
    | steps + 1 => scale steps (f / Float.ofScientific 1 false 308) (exponent + 308)

/-- The floating point number with a sign, a 64-bit significand and a power of ten. -/
def floatOf (isNegative : Bool) (significand : Nat) (exponent : Int) : Except Error Scalar := do
  let f ← scale 4 (UInt64.ofNat significand).toFloat exponent
  return .float (if isNegative then -f else f)

/-- The integer with a sign and a 64-bit magnitude.  Negative zero, and what is below the least
64-bit integer, is a floating point number. -/
def integerOf (isNegative : Bool) (magnitude : Nat) : Scalar :=
  if !isNegative then .natural magnitude
  else if 0 < magnitude && magnitude ≤ 0x8000000000000000 then .negative magnitude
  else .float (-(UInt64.ofNat magnitude).toFloat)

/-- Read an exponent behind its letter and end the number. -/
def readExponent (isNegative : Bool) (significand : Nat) (exponent : Int) (s : Text) :
    Except Error (Scalar × Text) :=
  let (isSmall, s) := match s with
    | '+' :: rest => (false, rest)
    | '-' :: rest => (true, rest)
    | s => (false, s)
  match s with
  | [] => .error .endInValue
  | c :: _ =>
    if !c.isDigit then .error .invalidNumber
    else
      let (digits, rest) := spanDigits s
      let power := decimalValue digits
      if power < 0x80000000 then do
        let f ← floatOf isNegative significand
          (if isSmall then exponent - power else exponent + power)
        return (f, rest)
      -- beyond 31 bits only the sign of the exponent counts
      else if significand ≠ 0 && !isSmall then .error .numberOutOfRange
      else .ok (.float (if isNegative then -0.0 else 0.0), rest)

/-- End a floating point number, with an exponent if one follows. -/
def readScaled (isNegative : Bool) (significand : Nat) (exponent : Int) (s : Text) :
    Except Error (Scalar × Text) :=
  match s with
  | 'e' :: rest => readExponent isNegative significand exponent rest
  | 'E' :: rest => readExponent isNegative significand exponent rest
  | rest => do return (← floatOf isNegative significand exponent, rest)

/-- Read a fraction behind its point and end the number. -/
def readFraction (isNegative : Bool) (significand : Nat) (exponent : Int) (s : Text) :
    Except Error (Scalar × Text) :=
  match spanDigits s with
  | ([], []) => .error .endInValue
  | ([], _ :: _) => .error .invalidNumber
  | (digits, rest) =>
    let (significand, taken) := gather significand digits
    readScaled isNegative significand (exponent - taken) rest

/-- Read what follows the integer part of a number, of which `dropped` digits did not fit. -/
def readTail (isNegative : Bool) (significand dropped : Nat) (s : Text) :
    Except Error (Scalar × Text) :=
  match s with
  | '.' :: rest => readFraction isNegative significand dropped rest
  | 'e' :: _ => readScaled isNegative significand dropped s
  | 'E' :: _ => readScaled isNegative significand dropped s
  | rest =>
    if dropped = 0 then .ok (integerOf isNegative significand, rest)
    else readScaled isNegative significand dropped rest

def readMagnitude (isNegative : Bool) (s : Text) : Except Error (Scalar × Text) :=
  match s with
  | [] => .error .endInValue
  | '0' :: rest =>
    match rest with
    | c :: _ => if c.isDigit then .error .invalidNumber else readTail isNegative 0 0 rest
    | [] => readTail isNegative 0 0 rest
  | c :: _ =>
    if !c.isDigit then .error .invalidNumber
    else
      let (digits, rest) := spanDigits s
      let (significand, taken) := gather 0 digits
      readTail isNegative significand (digits.length - taken) rest

def readNumber : Text → Except Error (Scalar × Text)
  | '-' :: rest => readMagnitude true rest
  | s => readMagnitude false s

/-! ### Strings -/

/-- The character that a one-letter escape stands for. -/
def unescape? (c : Char) : Option Char :=
  match c with
  | '"' => some '"'
  | '\\' => some '\\'
  | '/' => some '/'
  | 'b' => some '\x08'
  | 'f' => some '\x0c'
  | 'n' => some '\n'
  | 'r' => some '\r'
  | 't' => some '\t'
  | _ => none

/-- How far an escape has been read. -/
inductive Escape where
  | none
  /-- Behind a backslash. -/
  | backslash
  /-- In a four-digit escape, behind `count` digits of value `value`; `high` is the first half of a
  surrogate pair when this is the second. -/
  | hex (high : Option Nat) (count value : Nat)
  /-- Behind the first half of a surrogate pair. -/
  | afterHigh (high : Nat)
  /-- Behind the first half of a surrogate pair and a backslash. -/
  | afterHighBackslash (high : Nat)
deriving DecidableEq, Repr

/-- What a complete four-digit escape stands for. -/
inductive Unit16 where
  | char (c : Char)
  | high (n : Nat)
  | lone

/-- Read a four-digit escape behind the first half of a pair, if there was one. -/
def unit16 (high : Option Nat) (n : Nat) : Unit16 :=
  match high with
  | some h =>
    if 0xDC00 ≤ n && n ≤ 0xDFFF then
      .char (Char.ofNat (0x10000 + (h - 0xD800) * 0x400 + (n - 0xDC00)))
    else .lone
  | none =>
    if 0xD800 ≤ n && n ≤ 0xDBFF then .high n
    else if 0xDC00 ≤ n && n ≤ 0xDFFF then .lone
    else .char (Char.ofNat n)

def byteLength (s : Text) : Nat := s.foldr (fun c n => c.utf8Size + n) 0

/-- Put a character in front of the string that was read. -/
def prependTo (c : Char) (r : Except Error (Text × Text)) : Except Error (Text × Text) :=
  r.map fun (t, rest) => (c :: t, rest)

/-- Read the rest of a string: its characters, and the text behind the closing quote.  A four-digit
escape takes four bytes whatever they are, so near the end of the text it is cut off rather than
wrong. -/
def readStringFrom : Escape → Text → Except Error (Text × Text)
  | _, [] => .error .endInString
  | .none, c :: rest =>
    if c = '"' then .ok ([], rest)
    else if c = '\\' then readStringFrom .backslash rest
    else if c.toNat < 0x20 then .error .controlCharacter
    else prependTo c (readStringFrom .none rest)
  | .backslash, c :: rest =>
    if c = 'u' then readStringFrom (.hex Option.none 0 0) rest
    else
      match unescape? c with
      | some d => prependTo d (readStringFrom .none rest)
      | Option.none => .error .invalidEscape
  | .hex high count value, c :: rest =>
    match hexValue? c with
    | Option.none =>
      if 4 ≤ count + byteLength (c :: rest) then .error .invalidEscape else .error .endInString
    | some d =>
      if count < 3 then readStringFrom (.hex high (count + 1) (value * 16 + d)) rest
      else
        match unit16 high (value * 16 + d) with
        | .char c => prependTo c (readStringFrom .none rest)
        | .high h => readStringFrom (.afterHigh h) rest
        | .lone => .error .loneSurrogate
  | .afterHigh h, c :: rest =>
    if c = '\\' then readStringFrom (.afterHighBackslash h) rest else .error .surrogateEnd
  | .afterHighBackslash h, c :: rest =>
    if c = 'u' then readStringFrom (.hex (some h) 0 0) rest else .error .surrogateEnd

def readString (s : Text) : Except Error (Text × Text) := readStringFrom .none s

def writeChar (c : Char) : Text :=
  if c = '"' then ['\\', '"']
  else if c = '\\' then ['\\', '\\']
  else if c = '\x08' then ['\\', 'b']
  else if c = '\x0c' then ['\\', 'f']
  else if c = '\n' then ['\\', 'n']
  else if c = '\r' then ['\\', 'r']
  else if c = '\t' then ['\\', 't']
  else if c.toNat < 0x20 then
    ['\\', 'u', '0', '0'] ++ Text.hex (c.toNat / 16) ++ Text.hex (c.toNat % 16)
  else [c]

def writeString (t : Text) : Text := ['"'] ++ t.flatMap writeChar ++ ['"']

/-! ### Lexemes -/

/-- A lexeme of a JSON text. -/
inductive Lexeme where
  | openBrace
  | closeBrace
  | openBracket
  | closeBracket
  | colon
  | comma
  | string (t : Text)
  | scalar (s : Scalar)
  /-- A string that is not well formed. -/
  | brokenString (e : Error)
  /-- A number or word that is not well formed. -/
  | brokenScalar (e : Error)
  /-- A character that begins no lexeme. -/
  | stray (c : Char)

/-- Read the rest of a word. -/
def readWord (s : Scalar) : (word text : Text) → Except Error (Scalar × Text)
  | [], rest => .ok (s, rest)
  | _ :: _, [] => .error .endInValue
  | w :: word, c :: rest => if c = w then readWord s word rest else .error .expectedWord

/-- The lexeme of a scalar that was read; nothing is read behind one that is not well formed. -/
def Lexeme.ofScalar : Except Error (Scalar × Text) → Lexeme × Text
  | .ok (s, rest) => (.scalar s, rest)
  | .error e => (.brokenScalar e, [])

/-- The lexeme of a string that was read; nothing is read behind one that is not well formed. -/
def Lexeme.ofString : Except Error (Text × Text) → Lexeme × Text
  | .ok (t, rest) => (.string t, rest)
  | .error e => (.brokenString e, [])

/-- The lexeme that begins with a given character, and the text behind it. -/
def Lexeme.read (c : Char) (rest : Text) : Lexeme × Text :=
  if c = '{' then (.openBrace, rest)
  else if c = '}' then (.closeBrace, rest)
  else if c = '[' then (.openBracket, rest)
  else if c = ']' then (.closeBracket, rest)
  else if c = ':' then (.colon, rest)
  else if c = ',' then (.comma, rest)
  else if c = '"' then ofString (readString rest)
  else if c = 'n' then ofScalar (readWord .null ['u', 'l', 'l'] rest)
  else if c = 't' then ofScalar (readWord (.boolean true) ['r', 'u', 'e'] rest)
  else if c = 'f' then ofScalar (readWord (.boolean false) ['a', 'l', 's', 'e'] rest)
  else if c = '-' || c.isDigit then ofScalar (readNumber (c :: rest))
  else (.stray c, rest)

/-- The first `count` lexemes of a text. -/
def lexemesWithin : (count : Nat) → Text → List Lexeme
  | 0, _ => []
  | count + 1, s =>
    match s.dropWhile Char.isWhitespace with
    | [] => []
    | c :: rest => (Lexeme.read c rest).1 :: lexemesWithin count (Lexeme.read c rest).2

def lexemes (s : Text) : List Lexeme := lexemesWithin s.length s

end TextGrammar.Json
