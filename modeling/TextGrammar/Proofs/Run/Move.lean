import TextGrammar.Proofs.Run.Effect

/-!
# TextGrammar.Proofs.Run.Move — runs as lists of moves

A move is one operation on a state, with the data that it carries.  Every evaluation that comes to an
end makes a list of moves (`Run.effect_moves`): each can be made where it is made, together they lead
from the first state to the last, and the events are what is noted of them.  What happens to one stack
in a single move is said once (`Move.stack_cases`), and from it comes what holds behind all moves: an
entry of a stack was there before, or it has been laid there (`Grammar.mem_stack_after`).
-/

namespace TextGrammar

/-- A single operation on a state: one for each kind of event, and one that sets modifiers, source and
limit and is not noted. -/
inductive Move where
  | undefined (key : Text)
  | refuse (key : Text)
  | enter (key : Text)
  | leave (key : Text) (text : Chain Char)
  | push (key : Text) (value : Tree)
  | pop (key : Text)
  | draw (bound : Nat)
  | configure (modifiers : KeyMap Modifier) (source : Source) (maxDepth : Option Nat)

namespace Move

def apply (g : Grammar) : Move → Grammar
  | undefined _ => g
  | refuse _ => g
  | enter _ => g.enter
  | leave _ _ => g.leave
  | push key value => g.push key value
  | pop key => g.pop key
  | draw bound => (g.draw bound).2
  | configure modifiers source maxDepth => { g with modifiers, source, maxDepth }

/-- What is noted of a move. -/
def event? (g : Grammar) : Move → Option Event
  | undefined key => some (.undefined key)
  | refuse key => some (.refused key)
  | enter key => some (.entered key (g.depth + 1))
  | leave key text => some (.expanded key text)
  | push key _ => some (.pushed key)
  | pop key => some (.popped key)
  | draw bound => some (.drawn bound (g.draw bound).1)
  | configure _ _ _ => none

/-- The move can be made in the state. -/
def Fits (g : Grammar) : Move → Prop
  | undefined key => g.lookup key = none
  | refuse _ => g.admits = false
  | enter _ => g.admits = true
  | draw bound => bound ≠ 0
  | _ => True

/-- The value that a move lays on a key's stack. -/
def laid? (key : Text) : Move → Option Tree
  | push k value => if k = key then some value else none
  | _ => none

theorem laid?_eq_some {key : Text} {m : Move} {value : Tree} :
    m.laid? key = some value ↔ m = push key value := by
  cases m with
  | push k v =>
    rw [laid?]
    by_cases hk : k = key
    · subst hk
      simp
    · simp [hk]
  | _ => simp [laid?]

/-- **What a move does to a stack**: nothing, or it lays a value on it, or it takes the top from an
entry below. -/
theorem stack_cases (m : Move) (g : Grammar) (key : Text) :
    (m.laid? key = none ∧ (m.apply g).stack key = g.stack key) ∨
    (∃ value, m.laid? key = some value ∧ (m.apply g).stack key = value :: g.stack key) ∨
    (m.laid? key = none ∧ ∃ top next rest, g.stack key = top :: next :: rest ∧
      (m.apply g).stack key = next :: rest) := by
  cases m with
  | push k value =>
    have hstack : (apply g (push k value)).stack key = _ := g.stack_push k key value
    by_cases hk : k = key
    · subst hk
      rw [if_pos rfl] at hstack
      exact .inr (.inl ⟨value, if_pos rfl, hstack⟩)
    · rw [if_neg (Ne.symm hk)] at hstack
      exact .inl ⟨if_neg hk, hstack⟩
  | pop k =>
    have hstack : (apply g (pop k)).stack key = _ := g.stack_pop k key
    -- a pop counts only above the floor; at the floor it is a move that changes nothing
    by_cases hk : key = k ∧ 1 < (g.stack k).length
    · obtain ⟨rfl, hlt⟩ := hk
      rw [if_pos ⟨rfl, hlt⟩] at hstack
      match hst : g.stack key with
      | [] => simp [hst] at hlt
      | [_] => simp [hst] at hlt
      | top :: next :: rest =>
        rw [hst] at hstack
        exact .inr (.inr ⟨rfl, top, next, rest, rfl, hstack⟩)
    · rw [if_neg hk] at hstack
      exact .inl ⟨rfl, hstack⟩
  | draw bound => exact .inl ⟨rfl, g.stack_draw bound key⟩
  | undefined | refuse | enter | leave | configure => exact .inl ⟨rfl, rfl⟩

end Move

namespace Grammar

/-! ### Lists of moves -/

def after (g : Grammar) (ms : List Move) : Grammar := ms.foldl Move.apply g

theorem after_cons (g : Grammar) (m : Move) (ms : List Move) :
    g.after (m :: ms) = (m.apply g).after ms := rfl

/-- The moves can be made one after the other.  They lead from `g` to `h`, and the events are noted. -/
inductive Makes : Grammar → List Move → List Event → Grammar → Prop
  | nil {g : Grammar} : Makes g [] [] g
  | cons {g h : Grammar} {m : Move} {ms : List Move} {es : List Event} (fits : m.Fits g)
    (rest : Makes (m.apply g) ms es h) : Makes g (m :: ms) ((m.event? g).toList ++ es) h

namespace Makes

variable {g g₁ h : Grammar} {m : Move} {ms ns : List Move} {es fs : List Event}

theorem one (fits : m.Fits g) : g.Makes [m] (m.event? g).toList (m.apply g) := by
  have hone := cons fits nil
  rwa [List.append_nil] at hone

theorem append (hms : g.Makes ms es g₁) (hns : g₁.Makes ns fs h) : g.Makes (ms ++ ns) (es ++ fs) h := by
  induction hms with
  | nil => exact hns
  | cons fits _ ih =>
    rw [List.append_assoc]
    exact .cons fits (ih hns)

theorem after_eq (hms : g.Makes ms es h) : g.after ms = h := by
  induction hms with
  | nil => rfl
  | cons _ _ ih => exact ih

/-- Moves can be parted anywhere. -/
theorem split (h₀ : g.Makes (ms ++ ns) es h) :
    ∃ es₁ es₂, es = es₁ ++ es₂ ∧ g.Makes ms es₁ (g.after ms) ∧ (g.after ms).Makes ns es₂ h := by
  induction ms generalizing g es with
  | nil => exact ⟨[], es, rfl, .nil, h₀⟩
  | cons m ms ih =>
    cases h₀ with
    | cons fits rest =>
      obtain ⟨es₁, es₂, rfl, h₁, h₂⟩ := ih rest
      exact ⟨_, es₂, (List.append_assoc _ _ _).symm, .cons fits h₁, h₂⟩

/-- The next move can be made in the state that the moves before it lead to. -/
theorem fits_of_append (h₀ : g.Makes (ms ++ m :: ns) es h) : m.Fits (g.after ms) := by
  obtain ⟨_, _, -, -, hrest⟩ := h₀.split
  cases hrest with
  | cons fits _ => exact fits

end Makes

/-! ### Stacks behind moves -/

/-- **An entry of a stack** was there before, or has been laid there. -/
theorem mem_stack_after {g : Grammar} {ms : List Move} {key : Text} {t : Tree}
    (ht : t ∈ (g.after ms).stack key) : t ∈ g.stack key ∨ .push key t ∈ ms := by
  -- from the first move on: what stands behind it stood there before, or was laid there
  induction ms generalizing g with
  | nil => exact .inl ht
  | cons m ms ih =>
    rcases ih ht with ht | ht
    · obtain ⟨-, hst⟩ | ⟨value, hm, hst⟩ | ⟨-, top, next, rest, hg, hst⟩ := m.stack_cases g key
      · rw [hst] at ht
        exact .inl ht
      · rw [hst] at ht
        rcases List.mem_cons.1 ht with rfl | ht
        · obtain rfl := Move.laid?_eq_some.1 hm
          exact .inr List.mem_cons_self
        · exact .inl ht
      · rw [hst] at ht
        rw [hg]
        exact .inl (List.mem_cons_of_mem _ ht)
    · exact .inr (List.mem_cons_of_mem _ ht)

end Grammar

/-! ### Evaluations -/

/-- The events and the states belong to a list of moves, and what these lay on stacks is `laid`. -/
def Run.Moves (laid : Text → Tree → Prop) (g : Grammar) (es : List Event) (h : Grammar) : Prop :=
  ∃ ms, g.Makes ms es h ∧ ∀ key value, .push key value ∈ ms → laid key value

namespace Run.Moves

variable {laid : Text → Tree → Prop} {g g₁ h : Grammar} {es fs : List Event}

theorem nil (g : Grammar) : Moves laid g [] g := ⟨[], .nil, by simp⟩

theorem of_move {m : Move} (fits : m.Fits g)
    (hlaid : ∀ key value, m = .push key value → laid key value) :
    Moves laid g (m.event? g).toList (m.apply g) :=
  ⟨[m], .one fits, fun key value hm => hlaid key value (List.mem_singleton.1 hm).symm⟩

theorem append (hes : Moves laid g es g₁) (hfs : Moves laid g₁ fs h) : Moves laid g (es ++ fs) h := by
  obtain ⟨ms, hms, hlaid⟩ := hes
  obtain ⟨ns, hns, hlaid'⟩ := hfs
  refine ⟨ms ++ ns, hms.append hns, fun key value hm => ?_⟩
  rcases List.mem_append.1 hm with hm | hm
  · exact hlaid key value hm
  · exact hlaid' key value hm

theorem mono {laid' : Text → Tree → Prop} (hes : Moves laid g es h)
    (himp : ∀ key value, laid key value → laid' key value) : Moves laid' g es h := by
  obtain ⟨ms, hms, hlaid⟩ := hes
  exact ⟨ms, hms, fun key value hm => himp key value (hlaid key value hm)⟩

/-- What stands on a stack was there before, or is something that has been laid. -/
theorem mem_stack (hes : Moves laid g es h) {key : Text} {t : Tree} (ht : t ∈ h.stack key) :
    t ∈ g.stack key ∨ laid key t := by
  obtain ⟨ms, hms, hlaid⟩ := hes
  rw [← hms.after_eq] at ht
  exact (Grammar.mem_stack_after ht).imp id (hlaid key t)

end Run.Moves

/-- **Every evaluation that ends makes moves**, and what it lays on stacks is literal text. -/
theorem Run.effect_moves {laid : Text → Tree → Prop} (literal : ∀ key text, laid key (.literal text)) :
    Run.Effect (Run.Moves laid) where
  nil := .nil
  append := .append
  undefined key hg := .of_move (m := .undefined key) hg (by simp)
  refuse key hg := .of_move (m := .refuse key) hg (by simp)
  expand := by
    intro g h es key text hga hes
    have henter : Moves laid g [.entered key (g.depth + 1)] g.enter :=
      .of_move (m := .enter key) hga (by simp)
    have hleave : Moves laid h [.expanded key text] h.leave :=
      .of_move (m := .leave key text) trivial (by simp)
    exact (henter.append hes).append hleave
  push g key text := .of_move (m := .push key (.literal text)) trivial (by
    rintro _ _ ⟨⟩
    exact literal key text)
  pop g key := .of_move (m := .pop key) trivial (by simp)
  draw g bound hb := .of_move (m := .draw bound) hb (by simp)

end TextGrammar
