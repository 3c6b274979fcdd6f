import TextGrammar.Outline.Build
import TextGrammar.Text.Basic

/-!
# TextGrammar.Tree — expression trees, and reading them from grammar text

A tree is evaluated against the state of a grammar; it never changes itself.  `Tree.parse` reads every
text: constructs that the text leaves open end with it.  The values of actions and the parameters of calls
are read as documents of their own.  Such a raw text is shorter than the text around it, so the length of
the whole text bounds how deep documents nest.
-/

namespace TextGrammar

mutual

/-- An expression tree. -/
inductive Tree where
  /-- Text that stands for itself. -/
  | literal (text : Text)
  /-- The current value of a key, sent through modifier calls. -/
  | symbol (key : Text) (calls : List Call)
  /-- Items evaluated from left to right and joined. -/
  | concat (items : List Tree)
  /-- Evaluate a value and lay the resulting text on the key's stack. -/
  | push (key : Text) (value : Tree)
  /-- Take the top entry from the key's stack. -/
  | pop (key : Text)
  /-- One of several trees, drawn when it is evaluated. -/
  | select (alternatives : List Tree)

/-- A modifier call: a name, and parameters that are evaluated for each call. -/
inductive Call where
  | mk (name : Text) (params : List Tree)

end

namespace Call

def name : Call → Text
  | mk name _ => name

def params : Call → List Tree
  | mk _ params => params

end Call

namespace Tree

/-- Induction over a tree.  The trees below a symbol are the parameters of its calls. -/
@[elab_as_elim, induction_eliminator]
theorem induct {motive : Tree → Prop} (literal : ∀ text, motive (.literal text))
    (symbol : ∀ key calls, (∀ c ∈ calls, ∀ p ∈ c.params, motive p) → motive (.symbol key calls))
    (concat : ∀ items, (∀ t ∈ items, motive t) → motive (.concat items))
    (push : ∀ key value, motive value → motive (.push key value))
    (pop : ∀ key, motive (.pop key))
    (select : ∀ alternatives, (∀ t ∈ alternatives, motive t) → motive (.select alternatives))
    (t : Tree) : motive t :=
  @Tree.rec motive (fun c => ∀ p ∈ c.params, motive p)
    (fun cs => ∀ c ∈ cs, ∀ p ∈ c.params, motive p) (fun ts => ∀ t ∈ ts, motive t) literal symbol
    concat push pop select (fun _ _ h => h) (by simp)
    (fun _ _ h hs => List.forall_mem_cons.2 ⟨h, hs⟩) (by simp)
    (fun _ _ h hs => List.forall_mem_cons.2 ⟨h, hs⟩) t

/-- A document made of items: none is the empty text, and one stands for itself. -/
def ofItems : List Tree → Tree
  | [] => literal []
  | [t] => t
  | ts => concat ts

theorem ofItems_eq_concat {items : List Tree} (h : 2 ≤ items.length) :
    ofItems items = concat items := by
  cases items with
  | nil => simp at h
  | cons t rest =>
    cases rest with
    | nil => simp at h
    | cons u rest => rfl

/-- A choice between trees: none is the empty text, and one stands for itself. -/
def ofAlternatives : List Tree → Tree
  | [] => literal []
  | [t] => t
  | ts => select ts

theorem ofAlternatives_eq_select {alternatives : List Tree} (h : 2 ≤ alternatives.length) :
    ofAlternatives alternatives = select alternatives := by
  cases alternatives with
  | nil => simp at h
  | cons t rest =>
    cases rest with
    | nil => simp at h
    | cons u rest => rfl

end Tree

/-! ### Reading grammar text -/

/-- The call whose parameters are read by `read`. -/
def RawCall.toCall (read : Text → Tree) (c : RawCall) : Call := .mk c.name (c.params.map read)

/-- The tree of a piece whose raw texts are read by `read`. -/
def Piece.toTree (read : Text → Tree) : Piece → Tree
  | literal run => .literal run
  | push key values => .push key (Tree.ofAlternatives (values.map read))
  | pop key => .pop key
  | tag key calls => .symbol key (calls.map (RawCall.toCall read))

namespace Tree

/-- The tree of a text whose documents nest at most `depth` deep below it. -/
def parseWithin : (depth : Nat) → Text → Tree
  | 0, _ => literal []
  | depth + 1, s => ofItems ((outline s).map (Piece.toTree (parseWithin depth)))

/-- The tree of a text. -/
def parse (s : Text) : Tree := parseWithin s.length s

/-- The tree that draws one of several texts. -/
def parseAlternatives (texts : List Text) : Tree := ofAlternatives (texts.map parse)

end Tree

end TextGrammar
