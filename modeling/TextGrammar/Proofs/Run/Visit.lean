import TextGrammar.Proofs.Run.Move
import TextGrammar.Proofs.Run.Nesting

/-!
# TextGrammar.Proofs.Run.Visit — what an evaluation comes to

An evaluation comes to other evaluations, of the trees below its own and of the values of keys, each in
the state that it finds (`Tree.Visits`).  To come to one of them it need not come to an end itself, only
what stands before it must.  Every draw of an evaluation that ends is asked by a choice that it comes to
(`Tree.Yields.asksAt`).
-/

namespace TextGrammar

/-- Evaluating the first tree from the first state comes to evaluating the second tree from the second
state, whether it comes to an end or not. -/
inductive Tree.Visits : Tree → Grammar → Tree → Grammar → Prop
  | here {t : Tree} {g : Grammar} : Visits t g t g
  | value {key : Text} {calls : List Call} {v u : Tree} {g h : Grammar}
    (lookup : g.lookup key = some v) (admitted : g.admits = true) (rest : Visits v g.enter u h) :
    Visits (.symbol key calls) g u h
  /-- The value has been expanded and sent through the calls before, and the parameters before it have
  been evaluated. -/
  | param {key name : Text} {before after : List Call} {ps qs : List Tree} {p u : Tree}
    {g h : Grammar} {o o' : Outcome Text} (defined : (g.lookup key).isSome = true)
    (admitted : g.admits = true) (applied : (symbol key before).Yields g o)
    (registered : (o.grammar.modifiers.get? name).isSome = true)
    (evaluated : (concat ps).Yields o.grammar o') (rest : Visits p o'.grammar u h) :
    Visits (.symbol key (before ++ .mk name (ps ++ p :: qs) :: after)) g u h
  | item {ts us : List Tree} {t u : Tree} {g h : Grammar} {o : Outcome Text}
    (evaluated : (concat ts).Yields g o) (rest : Visits t o.grammar u h) :
    Visits (.concat (ts ++ t :: us)) g u h
  | pushed {key : Text} {v u : Tree} {g h : Grammar} (rest : Visits v g u h) :
    Visits (.push key v) g u h
  | alternative {ts : List Tree} {t u : Tree} {g h : Grammar}
    (drawn : ts[(g.draw ts.length).1]? = some t) (rest : Visits t (g.draw ts.length).2 u h) :
    Visits (.select ts) g u h

namespace Tree

variable {laid : Text → Tree → Prop}

theorem Yields.moves (literal : ∀ key text, laid key (.literal text)) {t : Tree} {g : Grammar}
    {o : Outcome Text} (ho : t.Yields g o) : Run.Moves laid g o.events o.grammar :=
  (Run.effect_moves literal).yields ho

end Tree

/-! ### Where an event is noted -/

section

variable {expand : Tree → Run (Chain Char)} {e : Event}

/-- An event of trees in a row is noted by one of them, when those before it have been evaluated. -/
theorem exists_of_mem_events_writeAllWith {ts : List Tree} {g : Grammar}
    {q : Outcome (List (Chain Char))} (hq : (writeAllWith expand ts).full g = some q)
    (he : e ∈ q.events) :
    ∃ before t after o p, ts = before ++ t :: after ∧
      (writeAllWith expand before).full g = some o ∧
      (t.writeWith expand).full o.grammar = some p ∧ e ∈ p.events := by
  induction ts generalizing g q with
  | nil =>
    rw [writeAllWith] at hq
    obtain rfl := Option.some.inj hq
    cases he
  | cons t ts ih =>
    rw [writeAllWith] at hq
    obtain ⟨p, _, hp, hrest, rfl⟩ := Run.full_bind_eq_some.1 hq
    obtain ⟨q', _, hq', hend, rfl⟩ := Run.full_bind_eq_some.1 hrest
    obtain rfl := Option.some.inj hend
    rw [Outcome.events_behind, Outcome.events_behind] at he
    -- the event is one of the first tree, in front of which nothing is evaluated, or of the others
    rcases List.mem_append.1 he with he | he
    · refine ⟨[], t, ts, ⟨[], ∅, g⟩, p, rfl, ?_, hp, he⟩
      rw [writeAllWith]
      rfl
    · have hmem : e ∈ q'.events := by
        rcases List.mem_append.1 he with he | he
        · exact he
        · cases he
      obtain ⟨before, u, after, o, r, rfl, ho, hr, her⟩ := ih hq' hmem
      -- the first tree joins those evaluated before
      have hbefore : (writeAllWith expand (t :: before)).full g =
          some (((⟨p.value :: o.value, ∅, o.grammar⟩ : Outcome _).behind o).behind p) := by
        rw [writeAllWith]
        exact Run.full_bind_eq_some.2 ⟨p, _, hp, Run.full_bind_eq_some.2 ⟨o, _, ho, rfl, rfl⟩, rfl⟩
      exact ⟨t :: before, u, after, _, r, rfl, hbefore, hr, her⟩

/-- An event of calls is noted by the parameters of one of them, when the calls before it have been
applied. -/
theorem exists_of_mem_events_applyAllWith {cs : List Call} {a : Chain Char} {g : Grammar}
    {q : Outcome (Chain Char)} (hq : (applyAllWith expand cs a).full g = some q)
    (he : e ∈ q.events) :
    ∃ before name params after o p, cs = before ++ .mk name params :: after ∧
      (applyAllWith expand before a).full g = some o ∧
      (o.grammar.modifiers.get? name).isSome = true ∧
      (writeAllWith expand params).full o.grammar = some p ∧ e ∈ p.events := by
  induction cs generalizing a g q with
  | nil =>
    rw [applyAllWith] at hq
    obtain rfl := Option.some.inj hq
    cases he
  | cons c cs ih =>
    obtain ⟨name, params⟩ := c
    rw [applyAllWith, Call.applyWith_mk] at hq
    obtain ⟨p, q', hp, hq', rfl⟩ := Run.full_bind_eq_some.1 hq
    rw [Outcome.events_behind] at he
    rcases List.mem_append.1 he with he | he
    -- a name that no modifier has evaluates nothing, so it has no events
    · obtain ⟨-, rfl⟩ | ⟨f, r, hf, hr, rfl⟩ := Run.full_modify_cases hp
      · cases he
      · refine ⟨[], name, params, cs, ⟨a, ∅, g⟩, r, rfl, ?_, ?_, hr, he⟩
        · rw [applyAllWith]
          rfl
        · show (g.modifiers.get? name).isSome = true
          rw [hf]
          rfl
    · obtain ⟨before, name', params', after, o, r, rfl, ho, hname, hr, her⟩ := ih hq' he
      refine ⟨.mk name params :: before, name', params', after, o.behind p, r, rfl, ?_, hname, hr, her⟩
      rw [applyAllWith, Call.applyWith_mk]
      exact Run.full_bind_eq_some.2 ⟨p, o, hp, ho, rfl⟩

end

namespace Tree

/-- A row of trees yields what they write one after the other. -/
theorem Yields.of_writeAllWith {nesting : Nat} {ts : List Tree} {g : Grammar}
    {o : Outcome (List (Chain Char))} (ho : (writeAllWith (expander nesting) ts).full g = some o) :
    ∃ p, (concat ts).Yields g p ∧ p.grammar = o.grammar := by
  have hwrite : ((concat ts).write nesting).full g =
      some ((⟨.join o.value, ∅, o.grammar⟩ : Outcome (Chain Char)).behind o) := by
    rw [write_eq, writeWith]
    exact Run.full_bind_eq_some.2 ⟨o, _, ho, rfl, rfl⟩
  exact ⟨_, .of_write hwrite, rfl⟩

/-- The draw is asked by a choice to which the evaluation comes. -/
def AsksAt (t : Tree) (g : Grammar) (bound index : Nat) : Prop :=
  ∃ ts h, t.Visits g (.select ts) h ∧ ts.length = bound ∧ bound ≠ 0 ∧ (h.draw bound).1 = index

section

variable {bound index nesting : Nat}

/-- What `expand` evaluates comes to a choice for this draw, if it draws. -/
def AsksWithin (expand : Tree → Run (Chain Char)) (bound index : Nat) : Prop :=
  ∀ ⦃v g o⦄, (expand v).full g = some o → .drawn bound index ∈ o.events → v.AsksAt g bound index

theorem asksAt_of_all {ts : List Tree} {g : Grammar} {q : Outcome (List (Chain Char))}
    (hq : (writeAllWith (expander nesting) ts).full g = some q)
    (he : .drawn bound index ∈ q.events)
    (ih : ∀ t ∈ ts, ∀ g o, (t.write nesting).full g = some o → .drawn bound index ∈ o.events →
      t.AsksAt g bound index) :
    ∃ before t after o, ts = before ++ t :: after ∧ (concat before).Yields g o ∧
      t.AsksAt o.grammar bound index := by
  obtain ⟨before, t, after, o, p, rfl, ho, hp, hep⟩ := exists_of_mem_events_writeAllWith hq he
  obtain ⟨o', ho', hstate⟩ := Yields.of_writeAllWith ho
  rw [← write_eq, ← hstate] at hp
  exact ⟨before, t, after, o', rfl, ho', ih t (by simp) _ _ hp hep⟩

theorem asksAt_symbol (hexpand : AsksWithin (expander nesting) bound index) {key : Text}
    {calls : List Call}
    (ih : ∀ c ∈ calls, ∀ p ∈ c.params, ∀ g o, (p.write nesting).full g = some o →
      .drawn bound index ∈ o.events → p.AsksAt g bound index)
    {g : Grammar} {q : Outcome (Chain Char)}
    (hq : ((symbol key calls).write nesting).full g = some q) (he : .drawn bound index ∈ q.events) :
    (symbol key calls).AsksAt g bound index := by
  rw [write_eq, writeWith_symbol] at hq
  obtain ⟨-, rfl⟩ | ⟨_, -, -, rfl⟩ | ⟨v, o, p, hg, hga, ho, hp, rfl⟩ := Run.full_read_cases hq
  · simp at he
  · simp at he
  · -- the draw belongs to the value, or to a parameter of one of the calls behind it
    have hparts : .drawn bound index ∈ o.events ∨ .drawn bound index ∈ p.events := by
      simpa using he
    rcases hparts with he | he
    · obtain ⟨ts, h, hvisits, hasks⟩ := hexpand ho he
      exact ⟨ts, h, .value hg hga hvisits, hasks⟩
    · obtain ⟨before, name, params, after, r, s, rfl, hr, hname, hs, hes⟩ :=
        exists_of_mem_events_applyAllWith hp he
      obtain ⟨ps, t, qs, u, rfl, hu, ts, h, hvisits, hasks⟩ :=
        asksAt_of_all hs hes fun t ht => ih (.mk name params) (by simp) t ht
      -- with only the calls in front, reading the key leads to where the parameter is evaluated
      have hbefore : ((symbol key before).write nesting).full g =
          some (.ofRead key (g.depth + 1) o r) := by
        rw [write_eq, writeWith_symbol]
        exact Run.full_read_admitted hg hga ho hr
      have hdefined : (g.lookup key).isSome = true := by
        rw [hg]
        rfl
      exact ⟨ts, h, .param hdefined hga (.of_write hbefore) hname hu hvisits, hasks⟩

/-- By induction on the tree, if values are expanded in this way. -/
theorem asksAt_write (hexpand : AsksWithin (expander nesting) bound index) {t : Tree} {g : Grammar}
    {q : Outcome (Chain Char)} (hq : (t.write nesting).full g = some q)
    (he : .drawn bound index ∈ q.events) : t.AsksAt g bound index := by
  -- on the tree, for the draws at its own level; those of expanded values are covered by `hexpand`
  induction t generalizing g q with
  | literal text =>
    rw [write_eq, writeWith] at hq
    obtain rfl := Option.some.inj hq
    cases he
  | symbol key calls ih =>
    exact asksAt_symbol hexpand (fun c hc p hp g o ho he => ih c hc p hp ho he) hq he
  | concat items ih =>
    rw [write_eq, writeWith] at hq
    obtain ⟨p, _, hp, hend, rfl⟩ := Run.full_bind_eq_some.1 hq
    obtain rfl := Option.some.inj hend
    have hep : .drawn bound index ∈ p.events := by simpa using he
    obtain ⟨before, t, after, o, rfl, ho, ts, h, hvisits, hasks⟩ :=
      asksAt_of_all hp hep fun t ht g o ho he => ih t ht ho he
    exact ⟨ts, h, .item ho hvisits, hasks⟩
  | push key value ih =>
    rw [write_eq, writeWith] at hq
    obtain ⟨p, _, hp, hrest, rfl⟩ := Run.full_bind_eq_some.1 hq
    obtain ⟨r, _, hr, hend, rfl⟩ := Run.full_bind_eq_some.1 hrest
    rw [Run.full_push] at hr
    obtain rfl := Option.some.inj hr
    obtain rfl := Option.some.inj hend
    have hep : .drawn bound index ∈ p.events := by simpa using he
    obtain ⟨ts, h, hvisits, hasks⟩ := ih (by rwa [write_eq]) hep
    exact ⟨ts, h, .pushed hvisits, hasks⟩
  | pop key =>
    rw [write_eq, writeWith] at hq
    obtain ⟨r, _, hr, hend, rfl⟩ := Run.full_bind_eq_some.1 hq
    rw [Run.full_pop] at hr
    obtain rfl := Option.some.inj hr
    obtain rfl := Option.some.inj hend
    simp at he
  | select ts ih =>
    by_cases hts : ts = []
    · subst hts
      rw [write_eq, full_writeWith_select_nil] at hq
      obtain rfl := Option.some.inj hq
      cases he
    · obtain ⟨t, ht⟩ := exists_getElem?_draw hts g
      rw [write_eq, full_writeWith_select ht, ← write_eq] at hq
      obtain ⟨p, hp, rfl⟩ := Option.map_eq_some_iff.1 hq
      rw [Outcome.events_behind] at he
      -- the choice's own draw, or one of the alternative that was drawn
      rcases List.mem_append.1 he with he | he
      · obtain ⟨rfl, rfl⟩ := Event.drawn.inj (List.mem_singleton.1 he)
        exact ⟨ts, g, .here, rfl, mt List.length_eq_zero_iff.1 hts, rfl⟩
      · obtain ⟨us, h, hvisits, hasks⟩ := ih t (List.mem_of_getElem? ht) hp he
        exact ⟨us, h, .alternative ht hvisits, hasks⟩

end

/-- **Every draw is asked by a choice** to which the evaluation comes: the bound is the number of its
alternatives. -/
theorem Yields.asksAt {t : Tree} {g : Grammar} {o : Outcome Text} (ho : t.Yields g o)
    {bound index : Nat} (he : .drawn bound index ∈ o.events) : t.AsksAt g bound index := by
  obtain ⟨nesting, p, hp, rfl⟩ := ho.exists_write
  have hexpand : ∀ n, AsksWithin (expander n) bound index := by
    intro n
    induction n with
    | zero =>
      intro v g o hv
      cases hv
    | succ n ih =>
      intro v g o hv he
      exact asksAt_write ih hv he
  exact asksAt_write (hexpand nesting) hp he

end Tree

end TextGrammar
