import TextGrammar.Outline.Build
import TextGrammar.Text.Basic
import TextGrammar.Tree.Parse

/-!
# TextGrammar.Tree.Document — the normal form of trees, and its grammar text

Grammar text is read to a document: a single item, or at least two items in a row none of which is
empty and among which no two literals are neighbours.  Keys and names have no backslashes.  A value of
an action may also be a choice between documents, and parameters of calls are documents.

`Tree.print` writes a tree with every character of its texts escaped, so that only its own marks are
read as marks.  Values of actions and parameters of calls are read twice, once inside the text around
them and once on their own; their printed form is escaped once more.
-/

namespace TextGrammar

/-- A key or name as it can stand in grammar text. -/
def Bare (name : Text) : Prop := '\\' ∉ name

instance (name : Text) : Decidable (Bare name) := inferInstanceAs (Decidable ('\\' ∉ name))

namespace Tree

def isLiteral : Tree → Bool
  | literal _ => true
  | _ => false

/-- The tree can stand in a row of items. -/
def IsItem : Tree → Prop
  | literal text => text ≠ []
  | concat _ => False
  | select _ => False
  | _ => True

/-- No two literals stand side by side. -/
def LiteralsApart : List Tree → Prop
  | literal _ :: literal _ :: _ => False
  | _ :: ts => LiteralsApart ts
  | [] => True

end Tree

mutual

/-- A tree in normal form. -/
inductive Tree.Document : Tree → Prop
  | literal (text : Text) : Tree.Document (.literal text)
  | symbol {key : Text} {calls : List Call} (bare : Bare key) (calls_ok : ∀ c ∈ calls, c.Document) :
    Tree.Document (.symbol key calls)
  | push {key : Text} {value : Tree} (bare : Bare key) (value_ok : value.Value) :
    Tree.Document (.push key value)
  | pop {key : Text} (bare : Bare key) : Tree.Document (.pop key)
  | concat {items : List Tree} (several : 2 ≤ items.length) (documents : ∀ t ∈ items, t.Document)
    (are_items : ∀ t ∈ items, t.IsItem) (apart : Tree.LiteralsApart items) :
    Tree.Document (.concat items)

/-- What can be laid on a stack: a document, or a choice between at least two. -/
inductive Tree.Value : Tree → Prop
  | document {t : Tree} (h : t.Document) : Tree.Value t
  | select {alternatives : List Tree} (several : 2 ≤ alternatives.length)
    (documents : ∀ t ∈ alternatives, t.Document) : Tree.Value (.select alternatives)

/-- A call whose parameters are documents. -/
inductive Call.Document : Call → Prop
  | mk {name : Text} {params : List Tree} (bare : Bare name) (documents : ∀ p ∈ params, p.Document) :
    Call.Document (.mk name params)

end

/-! ### Writing trees as grammar text -/

def Tree.isSelect : Tree → Bool
  | .select _ => true
  | _ => false

mutual

/-- The grammar text of a tree.  A choice stands only in an action, whose values it lists. -/
def Tree.print : Tree → Text
  | .literal text => Text.escaped text
  | .symbol key calls => ['#'] ++ Text.escaped key ++ printCalls calls ++ ['#']
  | .concat items => (printAll items).flatten
  | .push key value =>
    ['['] ++ Text.escaped key ++ [':'] ++
      (if value.isSelect then value.print else Text.escaped value.print) ++ [']']
  | .pop key => ['['] ++ Text.escaped key ++ [':'] ++ popWord ++ [']']
  | .select alternatives => Text.listed ((printAll alternatives).map Text.escaped)

/-- The grammar text of a call.  A call without parameters has no parentheses. -/
def Call.print : Call → Text
  | .mk name params =>
    ['.'] ++ Text.escaped name ++
      (if params.isEmpty then []
      else ['('] ++ Text.listed ((printAll params).map Text.escaped) ++ [')'])

def printAll : List Tree → List Text
  | [] => []
  | t :: ts => t.print :: printAll ts

def printCalls : List Call → Text
  | [] => []
  | c :: cs => c.print ++ printCalls cs

end

@[simp] theorem printAll_eq_map (ts : List Tree) : printAll ts = ts.map Tree.print := by
  induction ts with
  | nil => rfl
  | cons t ts ih => simp [printAll, ih]

@[simp] theorem printCalls_eq_flatMap (cs : List Call) : printCalls cs = cs.flatMap Call.print := by
  induction cs with
  | nil => rfl
  | cons c cs ih => simp [printCalls, ih]

end TextGrammar
