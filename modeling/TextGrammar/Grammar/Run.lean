import TextGrammar.Chain
import TextGrammar.Grammar.Basic

/-!
# TextGrammar.Grammar.Run — computations on a grammar

A run starts from the state of a grammar and, if it comes to an end, yields a value, the events that
it noted on the way, and the state that it leaves.  `none` means that the run was not granted enough
nesting to come to an end.  Who starts a run says which events are noted; it takes its course without
regard to that.
-/

namespace TextGrammar

/-- What a run does, in order. -/
inductive Event where
  | drawn (bound index : Nat)
  /-- The expansion of a key began at this depth. -/
  | entered (key : Text) (depth : Nat)
  /-- The expansion of a key ended with this text. -/
  | expanded (key : Text) (text : Chain Char)
  /-- The guard refused to expand a key. -/
  | refused (key : Text)
  /-- A key without a value was read. -/
  | undefined (key : Text)
  | pushed (key : Text)
  /-- The top of a key's stack was asked to go. -/
  | popped (key : Text)

namespace Event

def bound? : Event → Option Nat
  | drawn bound _ => some bound
  | _ => none

def index? : Event → Option Nat
  | drawn _ index => some index
  | _ => none

/-- The depth at which an expansion began. -/
def depth? : Event → Option Nat
  | entered _ depth => some depth
  | _ => none

def isDraw (e : Event) : Bool := e.bound?.isSome

end Event

/-- The end of a run. -/
structure Outcome (α : Type) where
  value : α
  trace : Chain Event
  grammar : Grammar

namespace Outcome

def events {α : Type} (o : Outcome α) : List Event := o.trace.toList

def bounds {α : Type} (o : Outcome α) : List Nat := o.events.filterMap Event.bound?

def indices {α : Type} (o : Outcome α) : List Nat := o.events.filterMap Event.index?

end Outcome

/-- A computation on the state of a grammar, of which some events are noted. -/
def Run (α : Type) : Type := (noted : Event → Bool) → Grammar → Option (Outcome α)

namespace Run

variable {α β : Type}

protected def pure (a : α) : Run α := fun _ g => some ⟨a, ∅, g⟩

protected def bind (x : Run α) (f : α → Run β) : Run β := fun noted g =>
  (x noted g).bind fun o =>
    (f o.value noted o.grammar).map fun p => { p with trace := o.trace ++ p.trace }

instance : Monad Run where
  pure := Run.pure
  bind := Run.bind

/-- The run that does not come to an end with the nesting granted. -/
def exhausted : Run α := fun _ _ => none

def state : Run Grammar := fun _ g => some ⟨g, ∅, g⟩

/-- Change the state by an event, or by several. -/
def change (f : Grammar → Grammar) (events : List Event) : Run Unit := fun noted g =>
  some ⟨(), .ofList (events.filter noted), f g⟩

def report (e : Event) : Run Unit := change id [e]

def push (key : Text) (value : Tree) : Run Unit := change (·.push key value) [.pushed key]

def pop (key : Text) : Run Unit := change (·.pop key) [.popped key]

/-- Draw an index below a bound.  A bound of zero asks nothing. -/
def draw (bound : Nat) : Run Nat := do
  if bound = 0 then
    return 0
  else
    let drawn := (← state).draw bound
    change (fun _ => drawn.2) [.drawn bound drawn.1]
    return drawn.1

def enter (key : Text) : Run Unit := do
  let entered := (← state).enter
  change (fun _ => entered) [.entered key entered.depth]

def leave (key : Text) (text : Chain Char) : Run Unit := change (·.leave) [.expanded key text]

end Run

end TextGrammar
