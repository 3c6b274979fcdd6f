import TextGrammar.Tree.Parse

/-!
# TextGrammar.Tree.Content — the keys, texts and nodes of a tree

A tree mentions a key where it reads it, lays a value on its stack or takes one from there; values of
actions, alternatives, and parameters of calls count.  Its content is the texts that stand in it, read
from left to right, and its size is how many nodes it has: calls count, with their names and parameters,
and so do the keys of constructs.
-/

namespace TextGrammar

/-! ### Keys -/

/-- What a tree does with a key. -/
inductive Mention where
  | read (key : Text)
  | push (key : Text)
  | pop (key : Text)
deriving DecidableEq, Repr

namespace Mention

def key : Mention → Text
  | read key => key
  | push key => key
  | pop key => key

/-- The stack of the key changes. -/
def isChange : Mention → Bool
  | read _ => false
  | _ => true

end Mention

mutual

/-- The mentions in a tree, from left to right. -/
def Tree.mentions : Tree → List Mention
  | .literal _ => []
  | .symbol key calls => .read key :: mentionsOfCalls calls
  | .concat items => mentionsOfAll items
  | .push key value => .push key :: value.mentions
  | .pop key => [.pop key]
  | .select alternatives => mentionsOfAll alternatives

def Call.mentions : Call → List Mention
  | .mk _ params => mentionsOfAll params

def mentionsOfAll : List Tree → List Mention
  | [] => []
  | t :: ts => t.mentions ++ mentionsOfAll ts

def mentionsOfCalls : List Call → List Mention
  | [] => []
  | c :: cs => c.mentions ++ mentionsOfCalls cs

end

@[simp] theorem mentionsOfAll_eq_flatMap (ts : List Tree) :
    mentionsOfAll ts = ts.flatMap Tree.mentions := by
  induction ts with
  | nil => rfl
  | cons t ts ih => simp [mentionsOfAll, ih]

@[simp] theorem mentionsOfCalls_eq_flatMap (cs : List Call) :
    mentionsOfCalls cs = cs.flatMap Call.mentions := by
  induction cs with
  | nil => rfl
  | cons c cs ih => simp [mentionsOfCalls, ih]

/-! ### Texts -/

mutual

/-- The texts in a tree, from left to right. -/
def Tree.content : Tree → Text
  | .literal text => text
  | .symbol key calls => key ++ contentOfCalls calls
  | .concat items => contentOfAll items
  | .push key value => key ++ value.content
  | .pop key => key
  | .select alternatives => contentOfAll alternatives

/-- The name of a call and the texts in its parameters. -/
def Call.content : Call → Text
  | .mk name params => name ++ contentOfAll params

def contentOfAll : List Tree → Text
  | [] => []
  | t :: ts => t.content ++ contentOfAll ts

def contentOfCalls : List Call → Text
  | [] => []
  | c :: cs => c.content ++ contentOfCalls cs

end

@[simp] theorem contentOfAll_eq_flatMap (ts : List Tree) :
    contentOfAll ts = ts.flatMap Tree.content := by
  induction ts with
  | nil => rfl
  | cons t ts ih => simp [contentOfAll, ih]

@[simp] theorem contentOfCalls_eq_flatMap (cs : List Call) :
    contentOfCalls cs = cs.flatMap Call.content := by
  induction cs with
  | nil => rfl
  | cons c cs ih => simp [contentOfCalls, ih]

/-! ### Nodes -/

mutual

/-- How many nodes a tree has, calls counted too. -/
def Tree.size : Tree → Nat
  | .literal _ => 1
  | .symbol _ calls => 1 + sizeOfCalls calls
  | .concat items => 1 + sizeOfAll items
  | .push _ value => 1 + value.size
  | .pop _ => 1
  | .select alternatives => 1 + sizeOfAll alternatives

/-- How many nodes a call has: itself and those of its parameters. -/
def Call.size : Call → Nat
  | .mk _ params => 1 + sizeOfAll params

def sizeOfAll : List Tree → Nat
  | [] => 0
  | t :: ts => t.size + sizeOfAll ts

def sizeOfCalls : List Call → Nat
  | [] => 0
  | c :: cs => c.size + sizeOfCalls cs

end

end TextGrammar
