import TextGrammar.Grammar.Run

/-!
# TextGrammar.Grammar.Resolve — evaluating trees, and commands to a grammar

`Tree.resolve` evaluates a tree to text.  Only reading a key leaves the tree at hand: its current
value is another tree, fetched when it is read.  So evaluation recurses on the tree, and on a
number of nested expansions that is spent on such reads alone.  `Tree.write` is the same with the
text as a chain, to which the text around it is joined.

A command changes a grammar or evaluates something against it.  Whatever it does is reported as
events, also what it lays on stacks without evaluating anything.
-/

namespace TextGrammar

/-- What a key stands for when it cannot be expanded. -/
def unresolvedKey (key : Text) : Text := ['(', '('] ++ key ++ [')', ')']

/-- What a call of a modifier that is not registered adds. -/
def unresolvedModifier (name : Text) : Text := ['(', '(', '.'] ++ name ++ [')', ')']

mutual

/-- Evaluate a tree; `expand` evaluates the values of keys. -/
def Tree.writeWith (expand : Tree → Run (Chain Char)) : Tree → Run (Chain Char)
  | .literal text => pure (.ofList text)
  | .symbol key calls => do
    match (← Run.state).lookup key with
    | none =>
      Run.report (.undefined key)
      return .ofList (unresolvedKey key)
    | some value =>
      if (← Run.state).admits then
        Run.enter key
        let text ← expand value
        -- the calls are made behind the end of the expansion, so at the depth in front of it
        Run.leave key text
        applyAllWith expand calls text
      else
        Run.report (.refused key)
        return .ofList (unresolvedKey key)
  | .concat items => do
    let texts ← writeAllWith expand items
    return .join texts
  | .push key value => do
    let text ← value.writeWith expand
    Run.push key (.literal text.toList)
    return ∅
  | .pop key => do
    Run.pop key
    return ∅
  | .select alternatives => do
    let index ← Run.draw alternatives.length
    writeNthWith expand index alternatives

/-- Send a value through a modifier.  The parameters are evaluated for each call; without the
modifier they are left alone. -/
def Call.applyWith (expand : Tree → Run (Chain Char)) : Call → Chain Char → Run (Chain Char)
  | .mk name params, value => do
    match (← Run.state).modifiers.get? name with
    | none => return value ++ .ofList (unresolvedModifier name)
    | some f =>
      let texts ← writeAllWith expand params
      return .ofList (f value.toList (texts.map Chain.toList))

def applyAllWith (expand : Tree → Run (Chain Char)) :
    List Call → Chain Char → Run (Chain Char)
  | [], value => pure value
  | c :: cs, value => do
    let text ← c.applyWith expand value
    applyAllWith expand cs text

def writeAllWith (expand : Tree → Run (Chain Char)) : List Tree → Run (List (Chain Char))
  | [] => pure []
  | t :: ts => do
    let text ← t.writeWith expand
    let texts ← writeAllWith expand ts
    return text :: texts

/-- Evaluate the tree at an index; behind the last tree the text is empty. -/
def writeNthWith (expand : Tree → Run (Chain Char)) : Nat → List Tree → Run (Chain Char)
  | _, [] => pure ∅
  | 0, t :: _ => t.writeWith expand
  | index + 1, _ :: ts => writeNthWith expand index ts

end

/-- Evaluate a tree with at most `nesting` expansions inside one another, to a chain. -/
def Tree.write : (nesting : Nat) → Tree → Run (Chain Char)
  | 0 => Tree.writeWith fun _ => Run.exhausted
  | nesting + 1 => Tree.writeWith (Tree.write nesting)

/-- Evaluate a tree with at most `nesting` expansions inside one another. -/
def Tree.resolve (nesting : Nat) (t : Tree) : Run Text := do
  return (← t.write nesting).toList

/-- Send a value through a modifier, with at most `nesting` expansions inside one another. -/
def Call.apply (nesting : Nat) (c : Call) (value : Text) : Run Text :=
  match nesting with
  | 0 => do return (← c.applyWith (fun _ => Run.exhausted) (.ofList value)).toList
  | nesting + 1 => do return (← c.applyWith (Tree.write nesting) (.ofList value)).toList

/-- Read a text and evaluate it. -/
def Run.flatten (nesting : Nat) (source : Text) : Run Text := (Tree.parse source).resolve nesting

/-- The nesting granted where no guard sets a limit: more than a run can make use of, for a depth
beyond it has no place in a machine word. -/
def unguardedNesting : Nat := UInt64.size

/-- The nesting that a run on the grammar is granted: what the guard still lets begin. -/
def Grammar.nesting (g : Grammar) : Nat :=
  match g.maxDepth with
  | none => unguardedNesting
  | some limit => limit - g.depth

/-! ### Commands -/

/-- A request to a grammar. -/
inductive Command where
  | flatten (source : Text)
  /-- Lay source texts on a key's stack, each as an entry of its own. -/
  | pushRules (key : Text) (sources : List Text)
  /-- Lay one entry on the stack of each key of a rule set. -/
  | load (rules : RuleSet)
  | register (pack : List (Text × Modifier))
  | setSource (source : Source)
  | setMaxDepth (limit : Option Nat)
  | push (key : Text) (value : Tree)
  | pop (key : Text)
  | resolve (tree : Tree)
  /-- Send a value through a modifier call. -/
  | apply (call : Call) (value : Text)
  | draw (bound : Nat)

/-- What a command answers. -/
inductive Answer where
  | done
  | text (t : Text)
  | number (n : Nat)
deriving DecidableEq, Repr

namespace Command

/-- Carry out a command with at most `nesting` expansions inside one another. -/
def perform (nesting : Nat) : Command → Run Answer
  | flatten source => return .text (← Run.flatten nesting source)
  | pushRules key sources => do
    Run.change (·.pushRules key sources) (sources.map fun _ => .pushed key)
    return .done
  | load rules => do
    Run.change (·.load rules) (rules.keys.map .pushed)
    return .done
  | register pack => do
    Run.change (·.registerAll pack) []
    return .done
  | setSource source => do
    Run.change (fun g => { g with source }) []
    return .done
  | setMaxDepth limit => do
    Run.change (fun g => { g with maxDepth := limit }) []
    return .done
  | push key value => do
    Run.push key value
    return .done
  | pop key => do
    Run.pop key
    return .done
  | resolve tree => return .text (← tree.resolve nesting)
  | apply call value => return .text (← call.apply nesting value)
  | draw bound => return .number (← Run.draw bound)

def performAll (nesting : Nat) : List Command → Run (List Answer)
  | [] => pure []
  | c :: cs => do
    let answer ← c.perform nesting
    let answers ← performAll nesting cs
    return answer :: answers

end Command

end TextGrammar
