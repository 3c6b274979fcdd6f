import TextGrammar.Text.Basic
import TextGrammar.Token.Scan

/-!
# TextGrammar.Outline — the outline of a grammar text

The outline of a text is the list of its top-level pieces: plain text, actions and tags.  Values of
actions and parameters of modifier calls stay raw texts here, since each of them is a document of
its own.

A single pass over the tokens makes it.  `Open` says what the tokens read so far have left open,
`Open.step` reads one token, and `Open.finish` closes whatever is open at the end of the text, so that
every text has an outline.  `Open.closing` is the text that would have closed it.  What has been read of
an open construct is held last things first, so that one more character, value or call is put in front;
it is turned around when the construct is complete.
-/

namespace TextGrammar

/-- A modifier call with its parameters as raw texts. -/
structure RawCall where
  name : Text
  params : List Text
deriving DecidableEq, Repr

/-- A top-level piece of a grammar text. -/
inductive Piece where
  | literal (run : Text)
  /-- `[key:value,value]` with its raw values. -/
  | push (key : Text) (values : List Text)
  | pop (key : Text)
  /-- `#key.name(param)#` with its calls in order. -/
  | tag (key : Text) (calls : List RawCall)
deriving DecidableEq, Repr

namespace Piece

/-- The raw texts inside a piece, in the order in which they stand. -/
def raws : Piece → List Text
  | literal _ => []
  | push _ values => values
  | pop _ => []
  | tag _ calls => calls.flatMap RawCall.params

end Piece

/-! ### Reading tokens -/

/-- The word that makes an action a pop when it is the whole body. -/
def popWord : Text := ['P', 'O', 'P']

/-- What the tokens read so far have left open.  Texts and lists that may still grow are held last
things first. -/
inductive Open where
  /-- No construct is open; `run` is the plain text read since the last one. -/
  | outside (run : Text)
  /-- Behind `[`. -/
  | action
  /-- Behind the key of an action. -/
  | actionKey (key : Text)
  /-- Behind the colon of an action. -/
  | actionColon (key : Text)
  /-- Behind a body that is the word `POP` so far. -/
  | actionPop (key : Text)
  /-- In the body of an action: the values read, and the value being read. -/
  | actionBody (key : Text) (values : List Text) (raw : Text)
  /-- Behind `#`. -/
  | tag
  /-- Behind the key or a call of a tag. -/
  | tagCalls (key : Text) (calls : List RawCall)
  /-- Behind a period in a tag. -/
  | callPeriod (key : Text) (calls : List RawCall)
  /-- Behind the name of a call. -/
  | callName (key : Text) (calls : List RawCall) (name : Text)
  /-- In the parameters of a call: the ones read, and the one being read. -/
  | callParams (key : Text) (calls : List RawCall) (name : Text) (params : List Text) (raw : Text)
deriving DecidableEq, Repr

namespace Open

/-- The piece that plain text makes; the empty text makes none. -/
def flush : Text → List Piece
  | [] => []
  | run => [.literal run.reverse]

/-- Put the text of a token behind a text that is held last character first. -/
def extend (t : Token) (raw : Text) : Text := t.value.reverse ++ raw

/-- All values, or parameters, when the last of them ends. -/
def complete (values : List Text) (raw : Text) : List Text := (raw.reverse :: values).reverse

/-! ### One token -/

/-- Outside, only `[` and `#` are special. -/
def stepOutside (run : Text) : Token → Open × List Piece
  | .mark .leftBracket => (action, flush run)
  | .mark .octo => (tag, flush run)
  | t => (outside (extend t run), [])

/-- In a body, `,` parts the values and `]` ends the action. -/
def stepBody (key : Text) (values : List Text) (raw : Text) : Token → Open × List Piece
  | .mark .comma => (actionBody key (raw.reverse :: values) [], [])
  | .mark .rightBracket => (outside [], [.push key (complete values raw)])
  | t => (actionBody key values (extend t raw), [])

/-- The word `POP` is special only when `]` follows; before anything else it is text. -/
def stepPop (key : Text) : Token → Open × List Piece
  | .mark .rightBracket => (outside [], [.pop key])
  | t => stepBody key [] popWord.reverse t

def stepColon (key : Text) (t : Token) : Open × List Piece :=
  if t = .text popWord then (actionPop key, []) else stepBody key [] [] t

/-- One colon may stand between key and body. -/
def stepKey (key : Text) : Token → Open × List Piece
  | .mark .colon => (actionColon key, [])
  | t => stepColon key t

/-- The key of an action is the run behind `[`; without one it is empty. -/
def stepAction : Token → Open × List Piece
  | .text run => (actionKey run, [])
  | t => stepKey [] t

/-- In a tag, `#` ends it, a period starts a call and all else is dropped. -/
def stepCalls (key : Text) (calls : List RawCall) : Token → Open × List Piece
  | .mark .octo => (outside [], [.tag key calls.reverse])
  | .mark .period => (callPeriod key calls, [])
  | _ => (tagCalls key calls, [])

/-- The key of a tag is the run behind `#`; without one it is empty. -/
def stepTag : Token → Open × List Piece
  | .text run => (tagCalls run [], [])
  | t => stepCalls [] [] t

/-- A call without `(` behind its name has no parameters. -/
def stepName (key : Text) (calls : List RawCall) (name : Text) : Token → Open × List Piece
  | .mark .leftParen => (callParams key calls name [] [], [])
  | t => stepCalls key (⟨name, []⟩ :: calls) t

/-- The name of a call is the run behind the period; without one it is empty. -/
def stepPeriod (key : Text) (calls : List RawCall) : Token → Open × List Piece
  | .text run => (callName key calls run, [])
  | t => stepName key calls [] t

/-- In parameters, `,` parts them and `)` ends the call. -/
def stepParams (key : Text) (calls : List RawCall) (name : Text) (params : List Text) (raw : Text) :
    Token → Open × List Piece
  | .mark .comma => (callParams key calls name (raw.reverse :: params) [], [])
  | .mark .rightParen => (tagCalls key (⟨name, complete params raw⟩ :: calls), [])
  | t => (callParams key calls name params (extend t raw), [])

/-- Read one token: what is open behind it, and the pieces that it completes. -/
def step : Open → Token → Open × List Piece
  | outside run, t => stepOutside run t
  | action, t => stepAction t
  | actionKey key, t => stepKey key t
  | actionColon key, t => stepColon key t
  | actionPop key, t => stepPop key t
  | actionBody key values raw, t => stepBody key values raw t
  | tag, t => stepTag t
  | tagCalls key calls, t => stepCalls key calls t
  | callPeriod key calls, t => stepPeriod key calls t
  | callName key calls name, t => stepName key calls name t
  | callParams key calls name params raw, t => stepParams key calls name params raw t

/-! ### The end of the text -/

/-- The pieces that the end of the text completes. -/
def finish : Open → List Piece
  | outside run => flush run
  -- a key or name that is missing is empty, and a body that is missing is one empty value
  | action => [.push [] [[]]]
  | actionKey key => [.push key [[]]]
  | actionColon key => [.push key [[]]]
  | actionPop key => [.pop key]
  | actionBody key values raw => [.push key (complete values raw)]
  | tag => [.tag [] []]
  | tagCalls key calls => [.tag key calls.reverse]
  | callPeriod key calls => [.tag key (RawCall.mk [] [] :: calls).reverse]
  | callName key calls name => [.tag key (RawCall.mk name [] :: calls).reverse]
  | callParams key calls name params raw =>
    [.tag key (RawCall.mk name (complete params raw) :: calls).reverse]

/-- The text that closes what is open. -/
def closing : Open → Text
  | outside _ => []
  | action | actionKey _ | actionColon _ | actionPop _ | actionBody .. => [']']
  | tag | tagCalls .. | callPeriod .. | callName .. => ['#']
  | callParams .. => [')', '#']

/-! ### All tokens -/

/-- The pieces that tokens complete from a given start, those at the end of the text included. -/
def run (o : Open) : List Token → List Piece
  | [] => o.finish
  | t :: ts => (o.step t).2 ++ run (o.step t).1 ts

/-- What is open behind a list of tokens. -/
def after (o : Open) (ts : List Token) : Open := ts.foldl (fun o t => (o.step t).1) o

end Open

def outline (s : Text) : List Piece := (Open.outside []).run (Token.scan s)

end TextGrammar
