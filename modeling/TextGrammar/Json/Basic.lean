import TextGrammar.Text.Printable

/-!
# TextGrammar.Json — JSON values and what can be wrong with a JSON text

`Json.Error` lists the causes for which a text is refused, and `Json.Error.message` words them.  Some of
them show a floating point number, in the fewest digits that read back.

A finite positive double stands for every real number that rounds to it.  `Decimal.shortest` finds
the decimal with the fewest digits among these numbers, and of several the one nearest to the double;
of two equally near ones it takes the even one.  All comparisons are between whole numbers.
-/

namespace TextGrammar

/-! ### The shortest decimal of a binary fraction -/

/-- The number `digits · 10 ^ exponent`. -/
structure Decimal where
  digits : Nat
  exponent : Int
deriving DecidableEq, Repr

/-- A positive double as `mantissa · 2 ^ exponent`. -/
structure Binary where
  mantissa : Nat
  exponent : Int
  /-- The next smaller double is only half as far away as the next larger one. -/
  closerBelow : Bool

namespace Binary

/-- The double with the given bits, its sign left out; zero for all others that are not finite. -/
def ofBits (bits : UInt64) : Binary :=
  let field := ((bits >>> 52) &&& 0x7FF).toNat
  let fraction := (bits &&& 0xFFFFFFFFFFFFF).toNat
  if field = 0 then ⟨fraction, -1074, false⟩
  else ⟨0x10000000000000 + fraction, field - 1075, fraction = 0 && field != 1⟩

/-- Four times a number `m · 2 ^ exponent`, in units of `2 ^ (-1100) · 10 ^ (-400)`. -/
def scaled (b : Binary) (m : Nat) : Nat := m * Nat.pow 2 (b.exponent + 1098).toNat * Nat.pow 10 400

def middle (b : Binary) : Nat := b.scaled (4 * b.mantissa)

/-- The least number that rounds to the double, in the units of `scaled`. -/
def lower (b : Binary) : Nat := b.scaled (4 * b.mantissa - if b.closerBelow then 1 else 2)

/-- The greatest number that rounds to the double, in the units of `scaled`. -/
def upper (b : Binary) : Nat := b.scaled (4 * b.mantissa + 2)

/-- The number rounds to the double.  A number half way between two doubles rounds to the one with
the even mantissa. -/
def holds (b : Binary) (n : Nat) : Bool :=
  if b.mantissa % 2 = 0 then b.lower ≤ n && n ≤ b.upper else b.lower < n && n < b.upper

end Binary

namespace Decimal

/-- A power of ten, in the units of `Binary.scaled`. -/
def unit (exponent : Int) : Nat := Nat.pow 10 (exponent + 400).toNat * Nat.pow 2 1100

/-- The number of digits in front of the point; zero or less when zeros follow the point. -/
def magnitude (b : Binary) : Int :=
  match (List.range 660).find? fun i => b.middle < unit (Int.ofNat i - 340) with
  | some i => Int.ofNat i - 340
  | none => 310

/-- Of the two neighbours of the double on the grid of an exponent, the one that rounds to the double
and is nearest to it. -/
def onGrid (b : Binary) (exponent : Int) : Option Nat :=
  let u := unit exponent
  let down := b.middle / u
  let below := b.middle - down * u
  let above := (down + 1) * u - b.middle
  let preferDown := below < above || (below = above && down % 2 = 0)
  let first := if preferDown then down else down + 1
  let second := if preferDown then down + 1 else down
  if b.holds (first * u) then some first
  else if b.holds (second * u) then some second
  else none

/-- The same decimal with one trailing zero less, if it has any.  Of the decimals on the grids of
`shortest` only `10` ends in a zero, where a double next to a power of ten rounds up to it. -/
def trim (d : Decimal) : Decimal :=
  if d.digits % 10 = 0 then ⟨d.digits / 10, d.exponent + 1⟩ else d

/-- The shortest decimal that rounds to a positive double. -/
def shortest (b : Binary) : Decimal :=
  let top := magnitude b
  let found := (List.range 17).findSome? fun n =>
    let exponent := top - (Int.ofNat n + 1)
    (onGrid b exponent).map fun digits => Decimal.mk digits exponent
  match found with
  | some d => d.trim
  | none => ⟨0, 0⟩

end Decimal

namespace Json

/-! ### Values -/

/-- A value without parts that is not a string. -/
inductive Scalar where
  | null
  | boolean (b : Bool)
  | natural (n : Nat)
  /-- The number `-n`. -/
  | negative (n : Nat)
  | float (f : Float)

/-- A JSON value. -/
inductive Value where
  | scalar (s : Scalar)
  | string (t : Text)
  | list (items : List Value)
  | object (members : List (Text × Value))

/-! ### Floating point numbers -/

/-- How a positive decimal is written: a point stands in numbers from `10 ^ (-5)` up to, but not
including, `10 ^ 16`; outside there is one digit in front of the point and an exponent, which always
has a sign. -/
def decimalText (d : Decimal) : Text :=
  let digits := Text.decimal d.digits
  let point := d.exponent + digits.length
  if 0 ≤ d.exponent && point ≤ 16 then
    digits ++ List.replicate d.exponent.toNat '0' ++ ['.', '0']
  else if 0 < point && point ≤ 16 then
    digits.take point.toNat ++ ['.'] ++ digits.drop point.toNat
  else if -5 < point && point ≤ 0 then
    ['0', '.'] ++ List.replicate (-point).toNat '0' ++ digits
  else
    let fraction := digits.drop 1
    let power := point - 1
    digits.take 1 ++ (if fraction.isEmpty then [] else ['.'] ++ fraction) ++ ['e'] ++
      (if power < 0 then ['-'] else ['+']) ++ Text.decimal power.natAbs

/-- A finite floating point number in the fewest digits that read back. -/
def floatText (f : Float) : Text :=
  let bits := f.toBits
  let sign := if bits >>> 63 = 1 then ['-'] else []
  let magnitude := Binary.ofBits bits
  if magnitude.mantissa = 0 then sign ++ ['0', '.', '0']
  else sign ++ decimalText (Decimal.shortest magnitude)

/-! ### Errors -/

/-- What stands where an object is due. -/
inductive Found where
  | scalar (s : Scalar)
  | string (t : Text)
  | sequence

/-- Why a text is refused. -/
inductive Error where
  | endInValue
  | endInObject
  | endInList
  | endInString
  | expectedColon
  | expectedCommaOrBrace
  | expectedCommaOrBracket
  | expectedValue
  | expectedWord
  | keyNotString
  | trailingComma
  | trailingCharacters
  | invalidNumber
  | numberOutOfRange
  | invalidEscape
  | controlCharacter
  | loneSurrogate
  | surrogateEnd
  | tooDeep
  /-- The text is no object. -/
  | notObject (found : Found)
  /-- A member's value is neither a string nor a list of strings. -/
  | notRule

namespace Found

def message : Found → Text
  | scalar .null => "null".toList
  | scalar (.boolean true) => "boolean `true`".toList
  | scalar (.boolean false) => "boolean `false`".toList
  | scalar (.natural n) => "integer `".toList ++ Text.decimal n ++ ['`']
  | scalar (.negative n) => "integer `-".toList ++ Text.decimal n ++ ['`']
  | scalar (.float f) => "floating point `".toList ++ floatText f ++ ['`']
  | string t => "string ".toList ++ Text.quoted t
  | sequence => "sequence".toList

end Found

namespace Error

def message : Error → Text
  | endInValue => "EOF while parsing a value".toList
  | endInObject => "EOF while parsing an object".toList
  | endInList => "EOF while parsing a list".toList
  | endInString => "EOF while parsing a string".toList
  | expectedColon => "expected `:`".toList
  | expectedCommaOrBrace => "expected `,` or `\x7d`".toList
  | expectedCommaOrBracket => "expected `,` or `]`".toList
  | expectedValue => "expected value".toList
  | expectedWord => "expected ident".toList
  | keyNotString => "key must be a string".toList
  | trailingComma => "trailing comma".toList
  | trailingCharacters => "trailing characters".toList
  | invalidNumber => "invalid number".toList
  | numberOutOfRange => "number out of range".toList
  | invalidEscape => "invalid escape".toList
  | controlCharacter =>
    "control character (\\u0000-\\u001F) found while parsing a string".toList
  | loneSurrogate => "lone leading surrogate in hex escape".toList
  | surrogateEnd => "unexpected end of hex escape".toList
  | tooDeep => "recursion limit exceeded".toList
  | notObject found => "invalid type: ".toList ++ found.message ++ ", expected a map".toList
  | notRule => "data did not match any variant of untagged enum Rule".toList

end Error

end Json

end TextGrammar
