/-!
# TextGrammar.Text — texts, sets of characters, digits and escapes

A text is a list of Unicode characters: grammar source, keys, names and everything that an expansion
writes.  `Span` is a run of code points, the form in which tables of characters are written down; white
space is the Unicode property `White_Space`, which is wider than the four blanks of `Char.isWhitespace`.
Numbers are written in decimal or in lowercase hexadecimal digits, and `decimalValue` is the number that
decimal digits stand for, whatever zeros they begin with.

A backslash escapes the character behind it.  `Text.escaped` escapes every character of a text and
`Text.unescaped` takes one level of escapes away again (`unescaped_escaped`).  `Text.characters` keeps
with each character whether it is escaped.  A text dangles when it ends in a backslash that escapes
nothing; a text that does not dangle can be followed by any other without a change to the escapes of
either (`characters_append`).
-/

namespace TextGrammar

/-- A text: its characters in order. -/
abbrev Text := List Char

/-- Texts with a comma between them. -/
def Text.listed (texts : List Text) : Text := List.intercalate [','] texts

namespace Text

@[simp] theorem listed_nil : listed [] = [] := rfl

@[simp] theorem listed_singleton (t : Text) : listed [t] = t := by
  simp [listed, List.intercalate]

@[simp] theorem listed_cons_cons (t u : Text) (rest : List Text) :
    listed (t :: u :: rest) = t ++ ',' :: listed (u :: rest) := by
  simp [listed, List.intercalate]

end Text

/-- The code points from `first` to `last`, both included. -/
structure Span where
  first : Nat
  last : Nat

namespace Span

def holds (s : Span) (c : Char) : Bool := s.first ≤ c.toNat && c.toNat ≤ s.last

def single (n : Nat) : Span := ⟨n, n⟩

end Span

/-! ### White space -/

/-- The code points with the Unicode property `White_Space`. -/
def blankSpans : List Span :=
  [⟨0x9, 0xD⟩, .single 0x20, .single 0x85, .single 0xA0, .single 0x1680, ⟨0x2000, 0x200A⟩,
    ⟨0x2028, 0x2029⟩, .single 0x202F, .single 0x205F, .single 0x3000]

/-- The character is white space. -/
def isBlank (c : Char) : Bool := blankSpans.any (·.holds c)

/-! ### Numbers in digits -/

def digitValue (c : Char) : Nat := c.toNat - '0'.toNat

/-- The value of a hexadecimal digit in either case. -/
def hexValue? (c : Char) : Option Nat :=
  if '0' ≤ c && c ≤ '9' then some (c.toNat - '0'.toNat)
  else if 'a' ≤ c && c ≤ 'f' then some (c.toNat - 'a'.toNat + 10)
  else if 'A' ≤ c && c ≤ 'F' then some (c.toNat - 'A'.toNat + 10)
  else none

/-- The number that decimal digits stand for. -/
def decimalValue (digits : Text) : Nat := digits.foldl (fun n c => n * 10 + digitValue c) 0

namespace Text

/-- A number in lowercase hexadecimal digits. -/
def hex (n : Nat) : Text := Nat.toDigits 16 n

def decimal (n : Nat) : Text := Nat.toDigits 10 n

end Text

/-! ### Backslashes in front of characters -/

namespace Text

/-- The text with a backslash in front of every character. -/
def escaped (t : Text) : Text := t.flatMap fun c => ['\\', c]

/-- The text without its escaping backslashes; one that escapes nothing goes too. -/
def unescaped : Text → Text
  | [] => []
  | '\\' :: [] => []
  | '\\' :: c :: rest => c :: unescaped rest
  | c :: rest => c :: unescaped rest

/-- The characters of a text, each with whether a backslash escapes it; a backslash that escapes
nothing is none of them. -/
def characters : Text → List (Bool × Char)
  | [] => []
  | '\\' :: [] => []
  | '\\' :: c :: rest => (true, c) :: characters rest
  | c :: rest => (false, c) :: characters rest

/-- The text ends in a backslash that escapes nothing. -/
def dangles : Text → Bool
  | [] => false
  | '\\' :: [] => true
  | '\\' :: _ :: rest => dangles rest
  | _ :: rest => dangles rest

@[simp] theorem escaped_nil : escaped [] = [] := rfl

@[simp] theorem escaped_cons (c : Char) (t : Text) : escaped (c :: t) = '\\' :: c :: escaped t := rfl

@[simp] theorem unescaped_escaped (t : Text) : unescaped (escaped t) = t := by
  induction t with
  | nil => rfl
  | cons c t ih => simp [unescaped, ih]

@[simp] theorem dangles_escaped (t : Text) : dangles (escaped t) = false := by
  induction t with
  | nil => rfl
  | cons c t ih => simp [dangles, ih]

@[simp] theorem characters_escaped (t : Text) : characters (escaped t) = t.map fun c => (true, c) := by
  induction t with
  | nil => rfl
  | cons c t ih => simp [characters, ih]

/-- What is neither a backslash at the end nor one in front of a character is none. -/
theorem ne_backslash {c : Char} {rest : Text} (h : c = '\\' → rest = [] → False)
    (h' : ∀ d rest', c = '\\' → rest = d :: rest' → False) : c ≠ '\\' := by
  intro hc
  cases rest with
  | nil => exact h hc rfl
  | cons d rest' => exact h' d rest' hc rfl

theorem dangles_cons {c : Char} (h : c ≠ '\\') (t : Text) : dangles (c :: t) = dangles t := by
  cases t <;> simp [dangles, h]

theorem characters_cons {c : Char} (h : c ≠ '\\') (t : Text) :
    characters (c :: t) = (false, c) :: characters t := by
  cases t <;> simp [characters, h]

theorem dangles_append {s : Text} (h : dangles s = false) (t : Text) :
    dangles (s ++ t) = dangles t := by
  fun_induction dangles s with
  | case1 => rfl
  | case2 => cases h
  | case3 c rest ih => exact ih h
  | case4 c rest h₁ h₂ ih => rw [List.cons_append, dangles_cons (ne_backslash h₁ h₂), ih h]

theorem characters_append {s : Text} (h : dangles s = false) (t : Text) :
    characters (s ++ t) = characters s ++ characters t := by
  fun_induction dangles s with
  | case1 => rfl
  | case2 => simp at h
  | case3 c rest ih => simpa [characters] using ih h
  | case4 c rest h₁ h₂ ih =>
    have hc : c ≠ '\\' := ne_backslash h₁ h₂
    simpa [characters, hc] using ih h

/-- The text without its escapes is the characters it stands for. -/
theorem unescaped_eq_map_characters (s : Text) : unescaped s = (characters s).map Prod.snd := by
  fun_induction unescaped s with
  | case1 => rfl
  | case2 => rfl
  | case3 c rest ih => simpa [characters] using ih
  | case4 c rest h₁ h₂ ih =>
    have hc : c ≠ '\\' := ne_backslash h₁ h₂
    simpa [characters, hc] using ih

/-- A text without backslashes does not end in one. -/
theorem dangles_eq_false {s : Text} (h : '\\' ∉ s) : dangles s = false := by
  induction s with
  | nil => rfl
  | cons c rest ih =>
    obtain ⟨hc, hrest⟩ := not_or.1 (mt List.mem_cons.2 h)
    rw [dangles_cons (Ne.symm hc), ih hrest]

/-- A text without backslashes has no escapes. -/
theorem unescaped_eq_self {s : Text} (h : '\\' ∉ s) : unescaped s = s := by
  induction s with
  | nil => rfl
  | cons c rest ih =>
    obtain ⟨hc, hrest⟩ := not_or.1 (mt List.mem_cons.2 h)
    simp [unescaped, Ne.symm hc, ih hrest]

/-- Taking the escapes away only drops characters. -/
theorem unescaped_sublist (s : Text) : List.Sublist (unescaped s) s := by
  fun_induction unescaped s with
  | case1 => exact .slnil
  | case2 => exact .cons _ .slnil
  | case3 c rest ih => exact (ih.cons_cons c).cons _
  | case4 c rest h₁ h₂ ih => exact ih.cons_cons c

end Text

end TextGrammar
