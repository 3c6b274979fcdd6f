import TextGrammar.Json.Lexeme

/-!
# TextGrammar.Json.Spelling — the texts that spell lexemes

JSON leaves a writer some freedom: most characters of a string can be escaped in more than one way, and
blanks may stand around every lexeme.  `SpelledText` says which texts between quotes spell a string, and
`Spelled` which texts spell a list of lexemes.  Neither says how a text is read.
-/

namespace TextGrammar.Json

/-! ### Strings -/

/-- The letters that may stand behind a backslash, and the characters that they stand for there. -/
def letterEscapes : List (Char × Char) :=
  [('"', '"'), ('\\', '\\'), ('/', '/'), ('b', '\x08'), ('f', '\x0c'), ('n', '\n'), ('r', '\r'),
    ('t', '\t')]

/-- The character is a hexadecimal digit, in either case. -/
def IsHexDigit (c : Char) (digit : Nat) : Prop :=
  digit < 16 ∧ (c = digit.digitChar ∨ c = digit.digitChar.toUpper)

/-- The hexadecimal digits of a number, zeros in front of it included. -/
inductive HexDigits : Text → Nat → Prop
  | nil : HexDigits [] 0
  | snoc {digits : Text} {n d : Nat} {c : Char} (front : HexDigits digits n) (last : IsHexDigit c d) :
    HexDigits (digits ++ [c]) (n * 16 + d)

/-- Four hexadecimal digits of a number. -/
def FourDigits (digits : Text) (n : Nat) : Prop := HexDigits digits n ∧ digits.length = 4

/-- The first half of the surrogate pair of a character beyond the first 65536 code points. -/
def highSurrogate (c : Char) : Nat := 0xD800 + (c.toNat - 0x10000) / 0x400

/-- The second half of the surrogate pair of a character beyond the first 65536 code points. -/
def lowSurrogate (c : Char) : Nat := 0xDC00 + (c.toNat - 0x10000) % 0x400

/-- What may stand between quotes for a text. -/
inductive SpelledText : Text → Text → Prop
  | nil : SpelledText [] []
  /-- A character stands for itself, unless it is a quote, a backslash or a control character. -/
  | plain {c : Char} {t s : Text} (quote : c ≠ '"') (backslash : c ≠ '\\') (control : 0x20 ≤ c.toNat)
    (rest : SpelledText t s) : SpelledText (c :: t) (c :: s)
  | letter {e c : Char} {t s : Text} (escape : (e, c) ∈ letterEscapes) (rest : SpelledText t s) :
    SpelledText (c :: t) ('\\' :: e :: s)
  /-- The code point in four digits.  No character has the code point of half a surrogate pair. -/
  | unit {c : Char} {digits t s : Text} (code : FourDigits digits c.toNat) (rest : SpelledText t s) :
    SpelledText (c :: t) ('\\' :: 'u' :: (digits ++ s))
  /-- A surrogate pair, each half in four digits. -/
  | pair {c : Char} {highs lows t s : Text} (beyond : 0x10000 ≤ c.toNat)
    (high : FourDigits highs (highSurrogate c)) (low : FourDigits lows (lowSurrogate c))
    (rest : SpelledText t s) :
    SpelledText (c :: t) ('\\' :: 'u' :: (highs ++ '\\' :: 'u' :: (lows ++ s)))

/-! ### Lexemes -/

namespace Lexeme

/-- The text spells the lexeme.  Only marks and strings have a place in a rule set. -/
inductive Spelled : Lexeme → Text → Prop
  | openBrace : Spelled .openBrace ['{']
  | closeBrace : Spelled .closeBrace ['}']
  | openBracket : Spelled .openBracket ['[']
  | closeBracket : Spelled .closeBracket [']']
  | colon : Spelled .colon [':']
  | comma : Spelled .comma [',']
  | string {t s : Text} (body : SpelledText t s) : Spelled (.string t) ('"' :: (s ++ ['"']))

def isPlain : Lexeme → Bool
  | openBrace | closeBrace | openBracket | closeBracket | colon | comma | string _ => true
  | scalar _ | brokenString _ | brokenScalar _ | stray _ => false

end Lexeme

/-- Spaces, tabs and line ends. -/
def Blanks (s : Text) : Prop := ∀ c ∈ s, c = ' ' ∨ c = '\t' ∨ c = '\n' ∨ c = '\r'

/-- The text spells the lexemes one after the other, with blanks around them. -/
inductive Spelled : List Lexeme → Text → Prop
  | nil {blanks : Text} (h : Blanks blanks) : Spelled [] blanks
  | cons {blanks s rest : Text} {l : Lexeme} {ls : List Lexeme} (h : Blanks blanks)
    (first : l.Spelled s) (others : Spelled ls rest) : Spelled (l :: ls) (blanks ++ (s ++ rest))

theorem Blanks.append {s t : Text} (hs : Blanks s) (ht : Blanks t) : Blanks (s ++ t) := by
  intro c hc
  rcases List.mem_append.1 hc with hc | hc
  · exact hs c hc
  · exact ht c hc

namespace Spelled

variable {ls ms : List Lexeme} {s t : Text}

theorem blanks_append {blanks : Text} (h : Blanks blanks) (hs : Spelled ls s) :
    Spelled ls (blanks ++ s) := by
  cases hs with
  | nil hb => exact .nil (h.append hb)
  | cons hb first others =>
    rw [← List.append_assoc]
    exact .cons (h.append hb) first others

theorem append (hs : Spelled ls s) (ht : Spelled ms t) : Spelled (ls ++ ms) (s ++ t) := by
  induction hs with
  | nil hb => exact ht.blanks_append hb
  | cons hb first others ih =>
    rw [List.append_assoc, List.append_assoc]
    exact .cons hb first ih

/-- A lexeme without blanks around it. -/
theorem single {l : Lexeme} (h : l.Spelled s) : Spelled [l] s := by
  have hnil : Blanks [] := fun c hc => absurd hc (List.not_mem_nil)
  simpa using Spelled.cons hnil h (.nil hnil)

end Spelled

end TextGrammar.Json
