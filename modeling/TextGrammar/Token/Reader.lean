import TextGrammar.Token.Scan

/-!
# TextGrammar.Token.Reader — tokens looked at ahead

A reader looks on only when no token is ready, and then up to the end of a run: the run and the token
that ends it are found together, so one look makes one token ready, or two, or none where the text ends
in the middle of an escape.  What has been looked at and not taken is held ready.  `Reader.answers`
serves a list of requests.  Past the last token who takes one is given the end, again and again, and an
iterator has nothing more to give.
-/

namespace TextGrammar

namespace Token

/-- A run as a token; the empty run is none. -/
def ofRun? : Text → Option Token
  | [] => none
  | run => some (text run)

/-- The token that ends a run, which at the end of the text is none, and the text behind it. -/
def readStop : Text → Option Token × Text
  | [] => (none, [])
  | '\\' :: '\\' :: rest => (some backslash, rest)
  | c :: rest => (ofChar? c, rest)

/-- What stands behind a run is a part of the text. -/
theorem readRun_suffix (s : Text) : (readRun s).2 <:+ s := by
  fun_induction readRun s with
  | case1 => exact List.suffix_refl _
  | case2 => exact List.nil_suffix
  | case3 rest => exact List.suffix_refl _
  | case4 c rest hc ih => exact ih.trans (List.suffix_append ['\\', c] rest)
  | case5 c rest h₁ h₂ h₃ t ht => exact List.suffix_refl _
  | case6 c rest h₁ h₂ h₃ ht ih => exact ih.trans (List.suffix_cons c rest)

theorem length_readStop_lt {s : Text} (h : s ≠ []) : (readStop s).2.length < s.length := by
  unfold readStop
  split
  · exact absurd rfl h
  · simp only [List.length_cons]
    omega
  · simp

/-- **Every look gets on**: less of the text is left. -/
theorem length_readStop_readRun_lt {s : Text} (h : s ≠ []) :
    (readStop (readRun s).2).2.length < s.length := by
  have hle := (readRun_suffix s).length_le
  by_cases hbehind : (readRun s).2 = []
  · rw [hbehind]
    exact List.length_pos_iff.2 h
  · have hlt := length_readStop_lt hbehind
    omega

/-- What a request is answered with. -/
inductive Reply where
  | token (t : Token)
  /-- The end of the text, which is given like a token and never comes to an end itself. -/
  | finish
  /-- No more tokens. -/
  | nothing
deriving DecidableEq, Repr

namespace Reply

/-- The next token, or the end where none is left. -/
def due : Option Token → Reply
  | some t => token t
  | none => finish

/-- The reply that an iterator makes of it. -/
def toIterator : Reply → Reply
  | finish => nothing
  | reply => reply

end Reply

/-- The reply to a request, where the next token is given, if one is left. -/
def Request.reply (q : Request) : Option Token → Reply
  | some t => .token t
  | none => if q = .next then .nothing else .finish

end Token

/-- A text that is read token by token. -/
structure Reader where
  /-- The tokens that have been looked at, the next one first. -/
  ready : List Token
  /-- The text that has not been looked at. -/
  rest : Text
deriving DecidableEq, Repr

namespace Reader

open Token

def ofText (s : Text) : Reader := ⟨[], s⟩

/-- Look on up to the end of a run. -/
def look (r : Reader) : Reader :=
  let behind := (readRun r.rest).2
  ⟨r.ready ++ (ofRun? (readRun r.rest).1).toList ++ (readStop behind).1.toList, (readStop behind).2⟩

theorem length_rest_look_lt {r : Reader} (h : r.rest ≠ []) : r.look.rest.length < r.rest.length :=
  length_readStop_readRun_lt h

/-- The next token, which is then ready; `none` when no token is left. -/
def peek (r : Reader) : Option Token × Reader :=
  match r.ready with
  | t :: _ => (some t, r)
  | [] => if _ : r.rest = [] then (none, r) else r.look.peek
termination_by r.rest.length
decreasing_by exact length_rest_look_lt ‹_›

/-- The next token, which is then no longer there. -/
def take (r : Reader) : Option Token × Reader :=
  (r.peek.1, { r.peek.2 with ready := r.peek.2.ready.tail })

/-- The reply to a request, and the reader behind it.  An iterator takes the next token too, and makes
nothing of the end. -/
def answer (r : Reader) : Request → Reply × Reader
  | .peek => (.due r.peek.1, r.peek.2)
  | .take => (.due r.take.1, r.take.2)
  | .next => ((Reply.due r.take.1).toIterator, r.take.2)

def answers (r : Reader) : List Request → List Reply
  | [] => []
  | q :: qs => (r.answer q).1 :: answers (r.answer q).2 qs

end Reader

end TextGrammar
