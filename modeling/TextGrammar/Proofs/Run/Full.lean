import Mathlib.Tactic.SplitIfs
import TextGrammar.Grammar.Resolve

/-!
# TextGrammar.Proofs.Run.Full — runs with every event noted

Statements about evaluation are about `Run.full`, the run that notes every event.  Two operations of a
run decide its course: reading a key (`Run.read`) and calling a modifier (`Run.modify`).  What
evaluation does to a symbol and to a call is said through them.  For each operation one equation says
what it does in full, and `full_read_cases` and `full_modify_cases` say what those two can come to, so no
proof behind this module opens a run to see its events.
-/

namespace TextGrammar

/-! ### Ends of runs -/

namespace Outcome

variable {α β : Type}

/-- Two ends of a run with the same value, events and state are equal. -/
theorem ext {o p : Outcome α} (hv : o.value = p.value) (he : o.events = p.events)
    (hg : o.grammar = p.grammar) : o = p := by
  obtain ⟨v, t, g⟩ := o
  obtain ⟨w, u, h⟩ := p
  obtain rfl : v = w := hv
  obtain rfl : t = u := Chain.ext he
  obtain rfl : g = h := hg
  rfl

/-- The end of one run behind another. -/
def behind (p : Outcome β) (o : Outcome α) : Outcome β := { p with trace := o.trace ++ p.trace }

@[simp] theorem events_mk (a : α) (t : Chain Event) (g : Grammar) :
    (⟨a, t, g⟩ : Outcome α).events = t.toList := rfl

@[simp] theorem events_behind (p : Outcome β) (o : Outcome α) :
    (p.behind o).events = o.events ++ p.events := by
  rw [events, behind, Chain.toList_append]
  rfl

/-- The end of reading a key whose expansion began at a depth and ended with `o`, when `p` has
finished the text. -/
def ofRead (key : Text) (depth : Nat) (o p : Outcome (Chain Char)) : Outcome (Chain Char) :=
  { p with trace := .ofList [.entered key depth] ++
      (o.trace ++ (.ofList [.expanded key o.value] ++ p.trace)) }

@[simp] theorem events_ofRead (key : Text) (depth : Nat) (o p : Outcome (Chain Char)) :
    (ofRead key depth o p).events =
      .entered key depth :: (o.events ++ .expanded key o.value :: p.events) := by
  simp [events, ofRead]

@[simp] theorem grammar_ofRead (key : Text) (depth : Nat) (o p : Outcome (Chain Char)) :
    (ofRead key depth o p).grammar = p.grammar := rfl

end Outcome

namespace Run

variable {α β : Type}

/-- The run with every event noted. -/
def full (x : Run α) (g : Grammar) : Option (Outcome α) := x (fun _ => true) g

@[simp] theorem full_pure (a : α) (g : Grammar) : (pure a : Run α).full g = some ⟨a, ∅, g⟩ := rfl

theorem full_bind (x : Run α) (f : α → Run β) (g : Grammar) :
    (x >>= f).full g = (x.full g).bind fun o =>
      ((f o.value).full o.grammar).map fun p => p.behind o := rfl

theorem full_bind_eq_some {x : Run α} {f : α → Run β} {g : Grammar} {q : Outcome β} :
    (x >>= f).full g = some q ↔
      ∃ o p, x.full g = some o ∧ (f o.value).full o.grammar = some p ∧ p.behind o = q := by
  rw [full_bind, Option.bind_eq_some_iff]
  constructor
  · rintro ⟨o, ho, hq⟩
    obtain ⟨p, hp, hpq⟩ := Option.map_eq_some_iff.1 hq
    exact ⟨o, p, ho, hp, hpq⟩
  · rintro ⟨o, p, ho, hp, hpq⟩
    exact ⟨o, ho, Option.map_eq_some_iff.2 ⟨p, hp, hpq⟩⟩

theorem full_state_bind (f : Grammar → Run β) (g : Grammar) :
    (state >>= f).full g = (f g).full g := by
  rw [full_bind]
  show Option.map _ ((f g).full g) = _
  cases (f g).full g <;> rfl

theorem full_change (f : Grammar → Grammar) (es : List Event) (g : Grammar) :
    (change f es).full g = some ⟨(), .ofList es, f g⟩ := by
  have hall : es.filter (fun _ => true) = es := List.filter_eq_self.2 fun _ _ => rfl
  rw [full, change, hall]

theorem full_change_bind (f : Grammar → Grammar) (es : List Event) (k : Unit → Run β)
    (g : Grammar) :
    (change f es >>= k).full g =
      ((k ()).full (f g)).map fun p => { p with trace := .ofList es ++ p.trace } := by
  rw [full_bind, full_change]
  rfl

/-! ### Reading a key -/

/-- Read a key: expand its value and finish the text, or report that it has none or is refused. -/
def read (key : Text) (expand : Tree → Run (Chain Char))
    (finish : Chain Char → Run (Chain Char)) : Run (Chain Char) := do
  match (← state).lookup key with
  | none =>
    report (.undefined key)
    return .ofList (unresolvedKey key)
  | some value =>
    if (← state).admits then
      enter key
      let text ← expand value
      leave key text
      finish text
    else
      report (.refused key)
      return .ofList (unresolvedKey key)

theorem full_read (key : Text) (expand : Tree → Run (Chain Char))
    (finish : Chain Char → Run (Chain Char)) (g : Grammar) :
    (read key expand finish).full g =
      match g.lookup key with
      | none => some ⟨.ofList (unresolvedKey key), .ofList [.undefined key], g⟩
      | some value =>
        if g.admits then
          ((expand value).full g.enter).bind fun o =>
            ((finish o.value).full o.grammar.leave).map (Outcome.ofRead key (g.depth + 1) o)
        else some ⟨.ofList (unresolvedKey key), .ofList [.refused key], g⟩ := by
  rw [read, full_state_bind]
  cases h : g.lookup key with
  | none => exact full_change_bind _ _ _ _
  | some value =>
    show (state >>= _ : Run _).full g = _
    rw [full_state_bind]
    show (if g.admits = true then _ else _ : Run _).full g = if g.admits = true then _ else _
    split_ifs
    · rw [full_bind, enter, full_state_bind, full_change, Option.bind_some]
      show Option.map _ _ = _
      rw [full_bind]
      show Option.map _ (Option.bind ((expand value).full g.enter) _) = _
      -- what is left is to put the events of entering, expanding and leaving together
      cases (expand value).full g.enter with
      | none => rfl
      | some o =>
        rw [Option.bind_some, Option.bind_some, leave, full_change_bind, Option.map_map,
          Option.map_map]
        rfl
    · exact full_change_bind _ _ _ _

section

variable {key : Text} {expand : Tree → Run (Chain Char)} {finish : Chain Char → Run (Chain Char)}
  {g : Grammar}

theorem full_read_undefined (hg : g.lookup key = none) :
    (read key expand finish).full g =
      some ⟨.ofList (unresolvedKey key), .ofList [.undefined key], g⟩ := by
  rw [full_read, hg]

theorem full_read_refused {value : Tree} (hg : g.lookup key = some value)
    (hga : g.admits = false) :
    (read key expand finish).full g =
      some ⟨.ofList (unresolvedKey key), .ofList [.refused key], g⟩ := by
  rw [full_read, hg]
  exact if_neg (by simp [hga])

theorem full_read_admitted {value : Tree} (hg : g.lookup key = some value)
    (hga : g.admits = true) {o p : Outcome (Chain Char)} (ho : (expand value).full g.enter = some o)
    (hp : (finish o.value).full o.grammar.leave = some p) :
    (read key expand finish).full g = some (.ofRead key (g.depth + 1) o p) := by
  rw [full_read, hg]
  dsimp only
  rw [if_pos hga, ho, Option.bind_some, hp]
  rfl

/-- **What reading a key can come to**: the key has no value, or it is refused, or its value is
expanded and the text finished. -/
theorem full_read_cases {q : Outcome (Chain Char)} (h : (read key expand finish).full g = some q) :
    (g.lookup key = none ∧ q = ⟨.ofList (unresolvedKey key), .ofList [.undefined key], g⟩) ∨
    (∃ value, g.lookup key = some value ∧ g.admits = false ∧
      q = ⟨.ofList (unresolvedKey key), .ofList [.refused key], g⟩) ∨
    ∃ value o p, g.lookup key = some value ∧ g.admits = true ∧
      (expand value).full g.enter = some o ∧ (finish o.value).full o.grammar.leave = some p ∧
      q = .ofRead key (g.depth + 1) o p := by
  rw [full_read] at h
  cases hg : g.lookup key with
  | none =>
    rw [hg] at h
    exact .inl ⟨rfl, (Option.some.inj h).symm⟩
  | some value =>
    rw [hg] at h
    dsimp only at h
    -- the guard is asked only where the key has a value
    by_cases hga : g.admits = true
    · rw [if_pos hga] at h
      obtain ⟨o, ho, h⟩ := Option.bind_eq_some_iff.1 h
      obtain ⟨p, hp, rfl⟩ := Option.map_eq_some_iff.1 h
      exact .inr (.inr ⟨value, o, p, rfl, hga, ho, hp, rfl⟩)
    · rw [if_neg hga] at h
      exact .inr (.inl ⟨value, rfl, by simpa using hga, (Option.some.inj h).symm⟩)

end

/-! ### Calling a modifier -/

/-- Send a value through a modifier whose parameters are evaluated by `params`. -/
def modify (name : Text) (value : Chain Char) (params : Run (List (Chain Char))) :
    Run (Chain Char) := do
  match (← state).modifiers.get? name with
  | none => return value ++ .ofList (unresolvedModifier name)
  | some f =>
    let texts ← params
    return .ofList (f value.toList (texts.map Chain.toList))

theorem full_modify (name : Text) (value : Chain Char) (params : Run (List (Chain Char)))
    (g : Grammar) :
    (modify name value params).full g =
      match g.modifiers.get? name with
      | none => some ⟨value ++ .ofList (unresolvedModifier name), ∅, g⟩
      | some f => (params.full g).map fun o =>
          { o with value := .ofList (f value.toList (o.value.map Chain.toList)) } := by
  rw [modify, full_state_bind]
  cases h : g.modifiers.get? name with
  | none => rfl
  | some f =>
    show (params >>= _ : Run _).full g = _
    rw [full_bind]
    cases params.full g <;> rfl

section

variable {name : Text} {value : Chain Char} {params : Run (List (Chain Char))} {g : Grammar}

theorem full_modify_unregistered (hg : g.modifiers.get? name = none) :
    (modify name value params).full g =
      some ⟨value ++ .ofList (unresolvedModifier name), ∅, g⟩ := by
  rw [full_modify, hg]

theorem full_modify_registered {f : Modifier} (hg : g.modifiers.get? name = some f)
    {o : Outcome (List (Chain Char))} (ho : params.full g = some o) :
    (modify name value params).full g =
      some { o with value := .ofList (f value.toList (o.value.map Chain.toList)) } := by
  rw [full_modify, hg]
  dsimp only
  rw [ho]
  rfl

/-- **What a call can come to**: the modifier is not registered, or it answers to the value and the
evaluated parameters. -/
theorem full_modify_cases {q : Outcome (Chain Char)}
    (h : (modify name value params).full g = some q) :
    (g.modifiers.get? name = none ∧ q = ⟨value ++ .ofList (unresolvedModifier name), ∅, g⟩) ∨
    ∃ f o, g.modifiers.get? name = some f ∧ params.full g = some o ∧
      q = { o with value := .ofList (f value.toList (o.value.map Chain.toList)) } := by
  rw [full_modify] at h
  cases hg : g.modifiers.get? name with
  | none =>
    rw [hg] at h
    exact .inl ⟨rfl, (Option.some.inj h).symm⟩
  | some f =>
    rw [hg] at h
    obtain ⟨o, ho, rfl⟩ := Option.map_eq_some_iff.1 h
    exact .inr ⟨f, o, rfl, ho, rfl⟩

end

/-! ### Stacks and draws -/

theorem full_push (key : Text) (value : Tree) (g : Grammar) :
    (push key value).full g = some ⟨(), .ofList [.pushed key], g.push key value⟩ :=
  full_change _ _ _

theorem full_pop (key : Text) (g : Grammar) :
    (pop key).full g = some ⟨(), .ofList [.popped key], g.pop key⟩ :=
  full_change _ _ _

theorem full_draw_zero (g : Grammar) : (draw 0).full g = some ⟨0, ∅, g⟩ := rfl

theorem full_draw {bound : Nat} (h : bound ≠ 0) (g : Grammar) :
    (draw bound).full g =
      some ⟨(g.draw bound).1, .ofList [.drawn bound (g.draw bound).1], (g.draw bound).2⟩ := by
  rw [draw, if_neg h, full_state_bind, full_change_bind]
  rfl

end Run

/-! ### Evaluation -/

theorem Call.applyWith_mk (expand : Tree → Run (Chain Char)) (name : Text) (params : List Tree)
    (value : Chain Char) :
    (Call.mk name params).applyWith expand value =
      Run.modify name value (writeAllWith expand params) := by
  rw [Call.applyWith]
  rfl

namespace Tree

theorem writeWith_symbol (expand : Tree → Run (Chain Char)) (key : Text) (calls : List Call) :
    (symbol key calls).writeWith expand = Run.read key expand (applyAllWith expand calls) := by
  rw [writeWith]
  rfl

theorem writeNthWith_of_getElem? (expand : Tree → Run (Chain Char)) {ts : List Tree} {i : Nat}
    {t : Tree} (h : ts[i]? = some t) : writeNthWith expand i ts = t.writeWith expand := by
  induction ts generalizing i with
  | nil => cases h
  | cons u ts ih =>
    cases i with
    | zero =>
      obtain rfl := Option.some.inj h
      rw [writeNthWith]
    | succ i =>
      rw [writeNthWith]
      exact ih h

/-- Behind the last tree the text is empty. -/
theorem writeNthWith_of_getElem?_eq_none (expand : Tree → Run (Chain Char)) {ts : List Tree}
    {i : Nat} (h : ts[i]? = none) : writeNthWith expand i ts = pure ∅ := by
  induction ts generalizing i with
  | nil => rw [writeNthWith]
  | cons u ts ih =>
    cases i with
    | zero => cases h
    | succ i =>
      rw [writeNthWith]
      exact ih h

/-- **A choice draws one index** below the number of its alternatives, and then it is the tree there. -/
theorem full_writeWith_select {ts : List Tree} {t : Tree} {g : Grammar}
    (ht : ts[(g.draw ts.length).1]? = some t) (expand : Tree → Run (Chain Char)) :
    ((select ts).writeWith expand).full g =
      ((t.writeWith expand).full (g.draw ts.length).2).map fun o =>
        o.behind (⟨(), .ofList [.drawn ts.length (g.draw ts.length).1], (g.draw ts.length).2⟩ :
          Outcome Unit) := by
  have hlength : ts.length ≠ 0 := by
    intro hnil
    rw [List.length_eq_zero_iff.1 hnil] at ht
    cases ht
  rw [writeWith, Run.full_bind, Run.full_draw hlength, Option.bind_some,
    writeNthWith_of_getElem? _ ht]
  rfl

/-- A choice without alternatives draws nothing. -/
theorem full_writeWith_select_nil (expand : Tree → Run (Chain Char)) (g : Grammar) :
    ((select []).writeWith expand).full g = some ⟨∅, ∅, g⟩ := by
  rw [writeWith, Run.full_bind, List.length_nil, Run.full_draw_zero, Option.bind_some, writeNthWith]
  rfl

/-- The index that a choice draws belongs to one of its alternatives. -/
theorem exists_getElem?_draw {ts : List Tree} (hts : ts ≠ []) (g : Grammar) :
    ∃ t, ts[(g.draw ts.length).1]? = some t :=
  ⟨_, List.getElem?_eq_getElem (g.draw_lt (mt List.length_eq_zero_iff.1 hts))⟩

/-- What evaluates the values of keys when some nesting is granted. -/
def expander : (nesting : Nat) → Tree → Run (Chain Char)
  | 0 => fun _ => Run.exhausted
  | nesting + 1 => write nesting

theorem write_eq (nesting : Nat) : write nesting = writeWith (expander nesting) := by
  cases nesting <;> rfl

theorem full_resolve (t : Tree) (nesting : Nat) (g : Grammar) :
    (t.resolve nesting).full g =
      ((t.write nesting).full g).map fun o => { o with value := o.value.toList } := by
  rw [resolve, Run.full_bind]
  cases (t.write nesting).full g <;> rfl

/-- Evaluating the tree from the state comes to an end with this outcome, if enough nesting is
granted. -/
def Yields (t : Tree) (g : Grammar) (o : Outcome Text) : Prop :=
  ∃ nesting, (t.resolve nesting).full g = some o

theorem Yields.of_write {t : Tree} {nesting : Nat} {g : Grammar} {p : Outcome (Chain Char)}
    (h : (t.write nesting).full g = some p) : t.Yields g { p with value := p.value.toList } :=
  ⟨nesting, by rw [full_resolve, h]; rfl⟩

/-- What a tree yields is what it writes. -/
theorem Yields.exists_write {t : Tree} {g : Grammar} {o : Outcome Text} (h : t.Yields g o) :
    ∃ nesting p, (t.write nesting).full g = some p ∧ { p with value := p.value.toList } = o := by
  obtain ⟨nesting, hn⟩ := h
  rw [full_resolve] at hn
  obtain ⟨p, hp, hpo⟩ := Option.map_eq_some_iff.1 hn
  exact ⟨nesting, p, hp, hpo⟩

end Tree

theorem Call.apply_eq (nesting : Nat) (c : Call) (value : Text) :
    c.apply nesting value = do
      return (← c.applyWith (Tree.expander nesting) (.ofList value)).toList := by
  cases nesting <;> rfl

end TextGrammar
