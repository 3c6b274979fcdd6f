import TextGrammar.KeyMap
import TextGrammar.Modifier.English
import TextGrammar.Random.Source
import TextGrammar.Text.Printable
import TextGrammar.Tree.Parse

/-!
# TextGrammar.Grammar — the state of a grammar

Each key owns a stack of trees whose top is its current value.  Beside the stacks a grammar holds its
modifiers, its source of indices, and the guard that limits how deep expansions nest.  Taking from a
stack never empties it: the first value of a key stays.

A grammar is built from settings, which may come in any order.  It takes the last source, or without one
the last seed, or without either the clock; the last limit; the English modifiers first and then the
modifiers of its own; and the rule sets in their order.

The whole state can be shown on one line: the stacks from the bottom up, the names of the modifiers, the
limit and the depth.  The source of indices is not shown.
-/

namespace TextGrammar

/-- The state against which trees are evaluated. -/
structure Grammar where
  /-- The stacks of the keys, each from its top down. -/
  store : KeyMap (List Tree)
  modifiers : KeyMap Modifier
  source : Source
  /-- How deep expansions may nest; `none` sets no limit. -/
  maxDepth : Option Nat
  depth : Nat

namespace Grammar

/-- A grammar without rules, modifiers and limit. -/
def ofSource (source : Source) : Grammar := ⟨∅, ∅, source, none, 0⟩

/-! ### Stacks -/

/-- The stack of a key from its top down; a key that never had a value has none. -/
def stack (g : Grammar) (key : Text) : List Tree := (g.store.get? key).getD []

/-- The current value of a key. -/
def lookup (g : Grammar) (key : Text) : Option Tree := (g.stack key).head?

def push (g : Grammar) (key : Text) (value : Tree) : Grammar :=
  { g with store := g.store.insert key (value :: g.stack key) }

/-- Take the top from a key's stack, unless it is the only entry. -/
def pop (g : Grammar) (key : Text) : Grammar :=
  match g.stack key with
  | _ :: next :: rest => { g with store := g.store.insert key (next :: rest) }
  | _ => g

theorem stack_push (g : Grammar) (key k : Text) (value : Tree) :
    (g.push key value).stack k = if k = key then value :: g.stack key else g.stack k := by
  unfold push stack
  rw [KeyMap.get?_insert]
  split <;> rfl

theorem stack_pop (g : Grammar) (key k : Text) :
    (g.pop key).stack k =
      if k = key ∧ 1 < (g.stack key).length then (g.stack key).tail else g.stack k := by
  unfold pop
  split
  · rename_i t next rest hst
    show (({ g with store := g.store.insert key (next :: rest) } : Grammar).store.get? k).getD [] = _
    rw [KeyMap.get?_insert, hst]
    by_cases hk : k = key <;> simp [hk, stack]
  · rename_i hst
    -- `pop` looks for two entries at least, so here there are fewer
    have hshort : ¬ 1 < (g.stack key).length := by
      intro hlt
      cases h : g.stack key with
      | nil => simp [h] at hlt
      | cons t rest =>
        cases rest with
        | nil => simp [h] at hlt
        | cons next rest => exact hst t next rest h
    rw [if_neg fun h => hshort h.2]

/-- Only stacks change when the top of one goes. -/
theorem pop_eq (g : Grammar) (key : Text) : ∃ store, g.pop key = { g with store } := by
  unfold pop
  split
  · exact ⟨_, rfl⟩
  · exact ⟨g.store, rfl⟩

/-- Lay the trees of source texts on a key's stack, the last one on top. -/
def pushRules (g : Grammar) (key : Text) (sources : List Text) : Grammar :=
  sources.foldl (fun g s => g.push key (Tree.parse s)) g

/-- Lay one tree for each rule on its key's stack: it draws one of the rule's alternatives. -/
def load (g : Grammar) (rules : RuleSet) : Grammar :=
  rules.entries.foldl (fun g e => g.push e.1 (Tree.parseAlternatives e.2.alternatives)) g

/-! ### Modifiers and choices -/

def register (g : Grammar) (name : Text) (f : Modifier) : Grammar :=
  { g with modifiers := g.modifiers.insert name f }

def registerAll (g : Grammar) (pack : List (Text × Modifier)) : Grammar :=
  pack.foldl (fun g e => g.register e.1 e.2) g

/-- Registering changes nothing but modifiers, by induction on what is registered. -/
theorem registerAll_eq (g : Grammar) (pack : List (Text × Modifier)) :
    g.registerAll pack = { g with modifiers := g.modifiers.insertAll pack } := by
  induction pack generalizing g with
  | nil => rfl
  | cons e pack ih => exact ih (g.register e.1 e.2)

/-- An index below the bound from the grammar's source, whose answer wraps around.  Below zero there
is no index and nothing is asked. -/
def draw (g : Grammar) (bound : Nat) : Nat × Grammar :=
  if bound = 0 then (0, g)
  else ((g.source.ask bound).1 % bound, { g with source := (g.source.ask bound).2 })

theorem draw_eq {bound : Nat} (h : bound ≠ 0) (g : Grammar) :
    g.draw bound =
      ((g.source.ask bound).1 % bound, { g with source := (g.source.ask bound).2 }) :=
  if_neg h

theorem draw_lt (g : Grammar) {bound : Nat} (h : bound ≠ 0) : (g.draw bound).1 < bound := by
  rw [draw_eq h]
  exact Nat.mod_lt _ (Nat.pos_of_ne_zero h)

theorem stack_draw (g : Grammar) (bound : Nat) (key : Text) :
    (g.draw bound).2.stack key = g.stack key := by
  unfold draw
  split <;> rfl

/-! ### The guard -/

/-- The guard lets one more expansion begin. -/
def admits (g : Grammar) : Bool :=
  match g.maxDepth with
  | none => true
  | some limit => g.depth < limit

def enter (g : Grammar) : Grammar := { g with depth := g.depth + 1 }

def leave (g : Grammar) : Grammar := { g with depth := g.depth - 1 }

end Grammar

/-! ### Building a grammar from settings -/

/-- One setting of a new grammar. -/
inductive Setting where
  | seed (n : UInt64)
  /-- Draw from a source, whatever the seed. -/
  | source (s : Source)
  | maxDepth (limit : Nat)
  | modifier (name : Text) (f : Modifier)
  | english
  | rules (r : RuleSet)

/-- The settings collected for a grammar. -/
structure Builder where
  seed : Option UInt64 := none
  source : Option Source := none
  maxDepth : Option Nat := none
  english : Bool := false
  modifiers : List (Text × Modifier) := []
  ruleSets : List RuleSet := []

namespace Builder

def set (b : Builder) : Setting → Builder
  | .seed n => { b with seed := some n }
  | .source s => { b with source := some s }
  | .maxDepth limit => { b with maxDepth := some limit }
  | .modifier name f => { b with modifiers := b.modifiers ++ [(name, f)] }
  | .english => { b with english := true }
  | .rules r => { b with ruleSets := b.ruleSets ++ [r] }

def ofSettings (settings : List Setting) : Builder := settings.foldl set {}

/-- The source of indices; `clock` seeds it when nothing else is set. -/
def chosenSource (b : Builder) (clock : UInt64) : Source :=
  match b.source, b.seed with
  | some s, _ => s
  | none, some n => Source.ofSeed n
  | none, none => Source.ofSeed clock

/-- The modifiers to register, later ones in place of earlier ones. -/
def pack (b : Builder) : List (Text × Modifier) :=
  (if b.english then English.pack else []) ++ b.modifiers

def build (b : Builder) (clock : UInt64) : Grammar :=
  let g := { Grammar.ofSource (b.chosenSource clock) with maxDepth := b.maxDepth }
  b.ruleSets.foldl Grammar.load (g.registerAll b.pack)

end Builder

def Grammar.build (settings : List Setting) (clock : UInt64) : Grammar :=
  (Builder.ofSettings settings).build clock

/-! ### Showing the state -/

def Text.commaJoin (texts : List Text) : Text := List.intercalate [',', ' '] texts

def Text.bracketed (texts : List Text) : Text := ['['] ++ Text.commaJoin texts ++ [']']

mutual

/-- A tree as nested constructors. -/
def Tree.inspect : Tree → Text
  | .literal text => "Literal(".toList ++ Text.quoted text ++ [')']
  | .symbol key calls =>
    "Symbol \x7b key: ".toList ++ Text.quoted key ++ ", modifiers: ".toList ++
      Text.bracketed (inspectCalls calls) ++ " \x7d".toList
  | .concat items => "Concat(".toList ++ Text.bracketed (inspectTrees items) ++ [')']
  | .push key value =>
    "Push \x7b key: ".toList ++ Text.quoted key ++ ", value: ".toList ++ value.inspect ++
      " \x7d".toList
  | .pop key => "Pop(".toList ++ Text.quoted key ++ [')']
  | .select alternatives => "Select(".toList ++ Text.bracketed (inspectTrees alternatives) ++ [')']

def Call.inspect : Call → Text
  | .mk name params =>
    "ModifierCall \x7b name: ".toList ++ Text.quoted name ++ ", params: ".toList ++
      Text.bracketed (inspectTrees params) ++ " \x7d".toList

def inspectTrees : List Tree → List Text
  | [] => []
  | t :: ts => t.inspect :: inspectTrees ts

def inspectCalls : List Call → List Text
  | [] => []
  | c :: cs => c.inspect :: inspectCalls cs

end

namespace Grammar

/-- A key with its stack, from the bottom up. -/
def inspectStack (key : Text) (stack : List Tree) : Text :=
  Text.quoted key ++ ": ".toList ++ Text.bracketed (inspectTrees stack.reverse)

def inspectLimit : Option Nat → Text
  | none => "None".toList
  | some limit => "Some(".toList ++ Text.decimal limit ++ [')']

/-- The state without the grammar around it. -/
def inspectContext (g : Grammar) : Text :=
  "Context \x7b stacks: \x7b".toList ++
    Text.commaJoin (g.store.entries.map fun e => inspectStack e.1 e.2) ++
    "\x7d, modifiers: ".toList ++ Text.bracketed (g.modifiers.keys.map Text.quoted) ++
    ", max_depth: ".toList ++ inspectLimit g.maxDepth ++
    ", depth: ".toList ++ Text.decimal g.depth ++ ", .. \x7d".toList

/-- The state of a grammar. -/
def inspect (g : Grammar) : Text :=
  "Grammar \x7b context: ".toList ++ g.inspectContext ++ " \x7d".toList

end Grammar

end TextGrammar
