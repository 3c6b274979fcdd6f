import TextGrammar.Text.Basic

/-!
# TextGrammar.Token — the tokens of grammar text

A token is a run of plain text, a single white space character, an escaped backslash, or one of the
eight control marks.  `Token.scan` cuts a whole text into tokens: control marks and white space are
tokens of their own, a backslash puts the next character into the run around it, a doubled backslash is
a token, and a backslash at the very end is dropped.

`Token.next?` reads one token and returns the text behind it, so the text that remains is all the state
a reader needs.  `Token.answers` serves a list of requests, some of which look at the next token without
taking it.

`Token.render` writes a token as grammar text, and `Token.Valid` says which lists of tokens can come from
a text.  Cut into single characters (`Token.cut`), the tokens are what the characters of their text are
one by one (`Token.ofCharacter`).
-/

namespace TextGrammar

/-- The control marks of grammar text. -/
inductive Mark where
  | octo | leftBracket | rightBracket | leftParen | rightParen | colon | comma | period
deriving DecidableEq, Repr

namespace Mark

def char : Mark → Char
  | octo => '#'
  | leftBracket => '['
  | rightBracket => ']'
  | leftParen => '('
  | rightParen => ')'
  | colon => ':'
  | comma => ','
  | period => '.'

def ofChar? (c : Char) : Option Mark :=
  if c = '#' then some octo
  else if c = '[' then some leftBracket
  else if c = ']' then some rightBracket
  else if c = '(' then some leftParen
  else if c = ')' then some rightParen
  else if c = ':' then some colon
  else if c = ',' then some comma
  else if c = '.' then some period
  else none

theorem ofChar?_char (m : Mark) : ofChar? m.char = some m := by
  cases m <;> rfl

theorem ofChar?_eq_some_iff {c : Char} {m : Mark} : ofChar? c = some m ↔ c = m.char := by
  constructor
  · intro h
    unfold ofChar? at h
    (repeat' split at h) <;> simp_all <;> subst h <;> rfl
  · rintro rfl
    exact ofChar?_char m

end Mark

/-- A token of grammar text. -/
inductive Token where
  /-- A run of plain characters, escapes already removed. -/
  | text (run : Text)
  /-- One white space character. -/
  | blank (c : Char)
  /-- A doubled backslash. -/
  | backslash
  | mark (m : Mark)
deriving DecidableEq, Repr

namespace Token

/-- The text that the token stands for. -/
def value : Token → Text
  | text run => run
  | blank c => [c]
  | backslash => ['\\']
  | mark m => [m.char]

/-- The token that an unescaped character makes on its own: control marks and white space do. -/
def ofChar? (c : Char) : Option Token :=
  match Mark.ofChar? c with
  | some m => some (mark m)
  | none => if isBlank c then some (blank c) else none

/-! ### The tokens of a text -/

/-- Put a plain character in front of a token list: it joins a run that stands first. -/
def attach (c : Char) : List Token → List Token
  | text run :: ts => text (c :: run) :: ts
  | ts => text [c] :: ts

/-- The tokens of a text. -/
def scan : Text → List Token
  | [] => []
  | '\\' :: [] => []
  | '\\' :: '\\' :: rest => backslash :: scan rest
  | '\\' :: c :: rest => attach c (scan rest)
  | c :: rest =>
    match ofChar? c with
    | some t => t :: scan rest
    | none => attach c (scan rest)

/-! ### One token at a time -/

/-- The longest run of plain characters at the front, escapes removed, and the text behind it. -/
def readRun : Text → Text × Text
  | [] => ([], [])
  | '\\' :: [] => ([], [])
  | '\\' :: '\\' :: rest => ([], '\\' :: '\\' :: rest)
  | '\\' :: c :: rest => ((readRun rest).1.cons c, (readRun rest).2)
  | c :: rest =>
    match ofChar? c with
    | some _ => ([], c :: rest)
    | none => ((readRun rest).1.cons c, (readRun rest).2)

/-- The first token of a text and the text behind it; `none` when no token is left. -/
def next? (s : Text) : Option (Token × Text) :=
  match readRun s with
  | (c :: run, rest) => some (text (c :: run), rest)
  | ([], '\\' :: '\\' :: rest) => some (backslash, rest)
  | ([], c :: rest) => (ofChar? c).map (·, rest)
  | ([], []) => none

/-- What a reader asks of a stream of tokens. -/
inductive Request where
  | peek
  | take
  /-- Take the next token as an iterator does, which comes to an end behind the last one. -/
  | next
deriving DecidableEq, Repr

namespace Request

/-- The request takes the token that answers it. -/
def consumes : Request → Bool
  | peek => false
  | take => true
  | next => true

variable {α β : Type}

/-- Among the answers to requests, those to who takes a token. -/
def taken (qs : List Request) (answers : List α) : List α :=
  ((qs.zip answers).filter fun p => p.1.consumes).map Prod.snd

theorem taken_cons (q : Request) (qs : List Request) (a : α) (as : List α) :
    taken (q :: qs) (a :: as) = if q.consumes then a :: taken qs as else taken qs as := by
  cases q <;> rfl

theorem taken_replicate (as : List α) : taken (List.replicate as.length .take) as = as := by
  induction as with
  | nil => rfl
  | cons a as ih => exact congrArg (a :: ·) ih

/-- Who takes gets what is made of the answers to those who take. -/
theorem taken_zipWith (f : Request → α → β) (qs : List Request) (as : List α) :
    taken qs (List.zipWith f qs as) = List.zipWith f (qs.filter consumes) (taken qs as) := by
  induction qs generalizing as with
  | nil => rfl
  | cons q qs ih =>
    cases as with
    | nil => exact List.zipWith_nil_right.symm
    | cons a as =>
      rw [List.zipWith_cons_cons, taken_cons, taken_cons, ih, List.filter_cons]
      split <;> rfl

end Request

/-- The token that answers a request, and the text that remains. -/
def answer (s : Text) (q : Request) : Option Token × Text :=
  match next? s with
  | some (t, rest) => (some t, if q.consumes then rest else s)
  | none => (none, s)

/-- The answers to a list of requests; past the last token every answer is `none`. -/
def answers (s : Text) : List Request → List (Option Token)
  | [] => []
  | q :: qs => (answer s q).1 :: answers (answer s q).2 qs

@[simp] theorem length_answers (s : Text) (qs : List Request) : (answers s qs).length = qs.length := by
  induction qs generalizing s with
  | nil => rfl
  | cons q qs ih => simp [answers, ih]

/-- Who takes one token after the other gets these in turn, and then none for ever. -/
def Serves (s : Text) (ts : List Token) : Prop :=
  ∀ n, answers s (List.replicate n .take) = (List.range n).map fun i => ts[i]?

/-! ### Tokens written down -/

def render : Token → Text
  | text run => Text.escaped run
  | blank c => [c]
  | backslash => ['\\', '\\']
  | mark m => [m.char]

def isText : Token → Bool
  | text _ => true
  | _ => false

@[simp] theorem isText_text (run : Text) : (text run).isText = true := rfl

/-- A run is not empty and has no backslash in it, and a blank is white space. -/
def WellFormed : Token → Prop
  | text run => run ≠ [] ∧ '\\' ∉ run
  | blank c => isBlank c = true
  | _ => True

/-- No two runs stand side by side. -/
def RunsApart : List Token → Prop
  | text _ :: text _ :: _ => False
  | _ :: ts => RunsApart ts
  | [] => True

/-- The list can come from a text. -/
def Valid (ts : List Token) : Prop := (∀ t ∈ ts, t.WellFormed) ∧ RunsApart ts

/-- A run cut into its characters; any other token is a single piece. -/
def cut : Token → List Token
  | text run => run.map fun c => text [c]
  | t => [t]

/-- The token of its own that a character of a text is, if it is one: a doubled backslash, or an
unescaped mark or white space. -/
def separator? : Bool × Char → Option Token
  | (true, c) => if c = '\\' then some backslash else none
  | (false, c) => ofChar? c

/-- What a character of a text is: a token of its own, or a run of one. -/
def ofCharacter (e : Bool × Char) : Token := (separator? e).getD (text [e.2])

end Token

end TextGrammar
