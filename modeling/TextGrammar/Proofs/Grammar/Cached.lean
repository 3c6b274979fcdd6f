import TextGrammar.Proofs.Run.Mention
import TextGrammar.Proofs.Run.Rules
import TextGrammar.Proofs.Run.Session

/-!
# TextGrammar.Proofs.Grammar.Cached — a value is evaluated when it is laid

What a push lays on a stack is the text of its value, evaluated there and then.  As long as nothing
changes the stack of the key, every read of the key gives that text, without a draw and without a change
of the state: a read that a command asks for, and a read in the course of an evaluation, where the
expansion ends as soon as it has begun (`Event.ReadsAs`).  By induction on the nesting this holds of
every run (`Run.Recalls`), and so of every session behind the push (`Tree.push_evaluates_once`).
-/

namespace TextGrammar

/-- Until the stack of the key changes, every read of the key is refused or gives the text at once. -/
def Event.ReadsAs (key text : Text) (es : List Event) : Prop :=
  ∀ before e after, es = before ++ e :: after → (∀ e ∈ before, e.Spares key) →
    e.mention? = some (.read key) →
      e = .refused key ∨
        ∃ depth rest, e = .entered key depth ∧ after = .expanded key (.ofList text) :: rest

namespace Event.ReadsAs

variable {key text : Text} {es fs : List Event}

/-- Events among which every read of the key is refused. -/
theorem of_forall (h : ∀ e ∈ es, e.mention? = some (.read key) → e = .refused key) :
    ReadsAs key text es := by
  rintro before e after rfl - hread
  exact .inl (h e (by simp) hread)

/-- The expansion itself. -/
theorem expansion (key text : Text) (depth : Nat) :
    ReadsAs key text [.entered key depth, .expanded key (.ofList text)] := by
  intro before e after hes _ hread
  cases before with
  | nil =>
    obtain ⟨rfl, rfl⟩ := List.cons.inj hes
    exact .inr ⟨depth, [], rfl, rfl⟩
  | cons _ before =>
    -- behind the beginning of the expansion there is only its end
    have hmem : e ∈ [expanded key (.ofList text)] := by
      rw [(List.cons.inj hes).2]
      exact List.mem_append_right _ List.mem_cons_self
    rw [List.mem_singleton.1 hmem] at hread
    cases hread

/-- What comes behind a change of the stack does not matter. -/
theorem append (hes : ReadsAs key text es)
    (hfs : (∀ e ∈ es, e.Spares key) → ReadsAs key text fs) : ReadsAs key text (es ++ fs) := by
  intro before e after hsplit hbefore hread
  rcases List.append_eq_append_iff.1 hsplit with ⟨before', rfl, hrest⟩ | ⟨cut, rfl, hrest⟩
  · obtain ⟨hspare, hbefore'⟩ := List.forall_mem_append.1 hbefore
    exact hfs hspare before' e after hrest hbefore' hread
  · cases cut with
    | nil =>
      rw [List.append_nil] at hes hfs
      exact hfs hbefore [] e after hrest.symm (by simp) hread
    | cons _ cut =>
      obtain ⟨rfl, rfl⟩ := List.cons.inj hrest
      refine (hes before _ cut rfl hbefore hread).imp id ?_
      rintro ⟨depth, rest, rfl, rfl⟩
      exact ⟨depth, rest ++ fs, rfl, rfl⟩

end Event.ReadsAs

/-- A literal is expanded to its text. -/
theorem Tree.eq_of_full_expander_literal {nesting : Nat} {text : Text} {g : Grammar}
    {o : Outcome (Chain Char)} (ho : (expander nesting (.literal text)).full g = some o) :
    o = ⟨.ofList text, ∅, g⟩ := by
  cases nesting with
  | zero => cases ho
  | succ nesting =>
    rw [expander, write_eq, writeWith] at ho
    exact (Option.some.inj ho).symm

namespace Run

variable {key text : Text} {expand : Tree → Run (Chain Char)}

/-- The run makes moves, and from a state where the text is the value of the key, every read of the key is
refused or gives it at once. -/
structure Recalls (key text : Text) {α : Type} (x : Run α) : Prop where
  moves : Effect.Had (Moves fun _ _ => True) x
  reads : ∀ ⦃g o⦄, x.full g = some o → g.lookup key = some (.literal text) →
    Event.ReadsAs key text o.events

theorem Moves.lookup_eq {laid : Text → Tree → Prop} {g h : Grammar} {es : List Event}
    (hes : Moves laid g es h) (hspare : ∀ e ∈ es, e.Spares key) : h.lookup key = g.lookup key := by
  rw [Grammar.lookup, hes.stack_eq hspare, Grammar.lookup]

namespace Recalls

theorem effect : Effect (Moves fun _ _ => True) := effect_moves fun _ _ => trivial

theorem pure {α : Type} (a : α) : (pure a : Run α).Recalls key text where
  moves := effect.pure a
  reads g o ho _ := by
    obtain rfl := Option.some.inj ho
    exact .of_forall (by simp)

theorem bind {α β : Type} {x : Run α} {f : α → Run β} (hx : x.Recalls key text)
    (hf : ∀ a, x.MayYield a → (f a).Recalls key text) : (x >>= f).Recalls key text where
  moves := effect.bind hx.moves fun a ha => (hf a ha).moves
  reads g q hq hg := by
    obtain ⟨o, p, ho, hp, rfl⟩ := full_bind_eq_some.1 hq
    rw [Outcome.events_behind]
    refine (hx.reads ho hg).append fun hspare => ?_
    have hlookup := ((hx.moves ho).lookup_eq hspare).trans hg
    exact (hf o.value ⟨g, o, ho, rfl⟩).reads hp hlookup

/-- The expansion of the key itself ends where it began; inside the expansion of another key the value
of the key is the same. -/
theorem read (he : ∀ v, (expand v).Recalls key text)
    (hliteral : ∀ ⦃g o⦄, (expand (.literal text)).full g = some o → o = ⟨.ofList text, ∅, g⟩) (k : Text)
    {f : Chain Char → Run (Chain Char)} (hf : ∀ a, (f a).Recalls key text) :
    (Run.read k expand f).Recalls key text where
  moves := effect.read (fun v => (he v).moves) k fun a => (hf a).moves
  reads g q hq hg := by
    obtain ⟨hnone, rfl⟩ | ⟨v, -, -, rfl⟩ | ⟨v, o, p, hv, -, ho, hp, rfl⟩ := full_read_cases hq
    · have hk : k ≠ key := by
        rintro rfl
        rw [hg] at hnone
        cases hnone
      exact .of_forall (by simp [Event.mention?, hk])
    -- a refused key is not evaluated, whichever key it is
    · exact .of_forall (by simp [Event.mention?])
    · rw [Outcome.events_ofRead]
      by_cases hk : k = key
      · subst hk
        obtain rfl := Option.some.inj (hg.symm.trans hv)
        -- the value of the key is the literal, so its expansion draws and changes nothing
        obtain rfl := hliteral ho
        have hp' := (hf _).reads hp hg
        exact (Event.ReadsAs.expansion k text _).append fun _ => hp'
      -- another key: its value may lay a new value on the key's stack, and then nothing is claimed
      -- of what follows; else the look-up is as before
      · have hbegin : Event.ReadsAs key text [.entered k (g.depth + 1)] := .of_forall (by simp [Event.mention?, hk])
        have hend : Event.ReadsAs key text [.expanded k o.value] := .of_forall (by simp [Event.mention?])
        refine hbegin.append fun _ => ((he v).reads ho hg).append fun hspare => hend.append fun _ => ?_
        have hlookup : o.grammar.lookup key = g.enter.lookup key := ((he v).moves ho).lookup_eq hspare
        exact (hf o.value).reads hp (hlookup.trans hg)

theorem modify (name : Text) (a : Chain Char) {x : Run (List (Chain Char))}
    (hx : x.Recalls key text) : (Run.modify name a x).Recalls key text where
  moves := effect.modify name a hx.moves
  reads g q hq hg := by
    obtain ⟨-, rfl⟩ | ⟨f, o, -, ho, rfl⟩ := full_modify_cases hq
    · exact .of_forall (by simp)
    · exact hx.reads ho hg

/-- A change of the state in which no key is read. -/
theorem change {f : Grammar → Grammar} {es : List Event}
    (hmoves : ∀ g, Moves (fun _ _ => True) g es (f g))
    (hes : ∀ e ∈ es, ∀ k, e.mention? ≠ some (.read k)) : (Run.change f es).Recalls key text where
  moves := Command.had_change hmoves
  reads g o ho _ := by
    rw [full_change] at ho
    obtain rfl := Option.some.inj ho
    exact .of_forall fun e he hread => absurd hread (hes e he key)

theorem draw (bound : Nat) : (Run.draw bound).Recalls key text where
  moves := effect.draw_had bound
  reads g o ho _ := by
    by_cases hb : bound = 0
    · subst hb
      rw [full_draw_zero] at ho
      obtain rfl := Option.some.inj ho
      exact .of_forall (by simp [Event.mention?])
    · rw [full_draw hb] at ho
      obtain rfl := Option.some.inj ho
      exact .of_forall (by simp [Event.mention?])

theorem invariant (he : ∀ v, (expand v).Recalls key text)
    (hliteral : ∀ ⦃g o⦄, (expand (.literal text)).full g = some o → o = ⟨.ofList text, ∅, g⟩) :
    Invariant (Recalls key text) expand where
  pure := .pure
  bind := .bind
  read _ hf := .read he hliteral _ hf
  modify := .modify
  push {key} text _ := .change (fun g => effect.push g key text) (by simp [Event.mention?])
  pop {key} _ := .change (fun g => effect.pop g key) (by simp [Event.mention?])
  draw := .draw

/-- By induction on the nesting. -/
theorem expander (key text : Text) (nesting : Nat) (t : Tree) :
    (Tree.expander nesting t).Recalls key text := by
  induction nesting generalizing t with
  | zero => constructor <;> rintro _ _ ⟨⟩
  | succ nesting ih =>
    rw [Tree.expander, Tree.write_eq]
    exact (invariant ih fun _ _ => Tree.eq_of_full_expander_literal).writeWith t

theorem performAll (key text : Text) (nesting : Nat) (commands : List Command) :
    (Command.performAll nesting commands).Recalls key text := by
  have h : Invariant (Recalls key text) (Tree.expander nesting) :=
    invariant (expander key text nesting) fun _ _ => Tree.eq_of_full_expander_literal
  refine Command.performAll_of_perform h fun c _ => Command.perform_of_change h fun f es hes hmoves => ?_
  exact .change (fun g => (hmoves g).mono fun _ _ _ => trivial) hes

end Recalls

end Run

namespace Tree

/-- **A pushed value is evaluated once**, when it is pushed: that gives no text, and lays the text of the
value on the stack of the key.  In any session from there, every read of the key that the guard does not
refuse gives that text at once, until the stack of the key changes.  Where it has not changed at the end of
the session and the guard lets an expansion begin, the key gives that text without a draw and leaves the
state as it is. -/
theorem push_evaluates_once {value : Tree} {g g₁ : Grammar} {text : Text} {draws : List Event}
    (hvalue : value.Gives g text draws g₁) (key : Text) :
    (push key value).Gives g [] draws (g₁.push key (.literal text)) ∧
    ∀ (nesting : Nat) (commands : List Command) (o : Outcome (List Answer)),
      (Command.performAll nesting commands).full (g₁.push key (.literal text)) = some o →
        Event.ReadsAs key text o.events ∧
        ((∀ e ∈ o.events, e.Spares key) →
          o.grammar.stack key = .literal text :: g₁.stack key ∧
            (o.grammar.admits = true → (symbol key []).Gives o.grammar text [] o.grammar)) := by
  have hstack : (g₁.push key (.literal text)).stack key = .literal text :: g₁.stack key := by
    rw [g₁.stack_push, if_pos rfl]
  refine ⟨gives_push.2 ⟨rfl, text, g₁, hvalue, rfl⟩, fun nesting commands o ho => ?_⟩
  have hsession := Run.Recalls.performAll key text nesting commands
  refine ⟨hsession.reads ho (by rw [Grammar.lookup, hstack]; rfl), fun hspare => ?_⟩
  have hend : o.grammar.stack key = .literal text :: g₁.stack key :=
    ((hsession.moves ho).stack_eq hspare).trans hstack
  refine ⟨hend, fun hga => ?_⟩
  have hlookup : o.grammar.lookup key = some (.literal text) := by
    rw [Grammar.lookup, hend]
    rfl
  exact (gives_symbol_admitted hlookup hga).2 ⟨_, gives_literal text _, rfl⟩

/-- A value that draws and changes the stack of its own key.  The commands behind it read the key at two
depths and through a modifier, draw, and change other stacks and the limit. -/
theorem push_evaluates_once_own :
    let k : Text := ['k']
    let z : Text := ['z']
    let choice : Tree := .select [.literal ['m'], .literal ['n']]
    let value : Tree := .concat [.push k choice, .symbol k [], choice]
    let start := (Grammar.ofSource (.table [1, 0, 1])).push z (.concat [.symbol k [], choice])
    let g := start.push k (.literal ['x'])
    let commands : List Command := [.register [(['f'], fun v params => v ++ params.flatten)],
      .flatten ['#', 'z', '#', '[', 'z', ':', '#', 'k', '#', ']', '#', 'z', '#'],
      .setMaxDepth (some 1), .draw 5, .pop z, .push z choice,
      .resolve (.symbol k [.mk ['f'] [.symbol k [], .symbol z []]])]
    ∃ (o : Outcome Text) (p : Outcome (List Answer)),
      value.Gives g ['n', 'm'] o.draws o.grammar ∧ o.bounds = [2, 2] ∧
      (push k value).Gives g [] o.draws (o.grammar.push k (.literal ['n', 'm'])) ∧
      (Command.performAll 2 commands).full (o.grammar.push k (.literal ['n', 'm'])) = some p ∧
      p.value = [.done, .text ['n', 'm', 'n', 'n', 'm'], .done, .number 0, .done, .done,
        .text ['n', 'm', 'n', 'm', 'm']] ∧
      Event.ReadsAs k ['n', 'm'] p.events ∧ (∀ e ∈ p.events, e.Spares k) ∧
      (symbol k []).Gives p.grammar ['n', 'm'] [] p.grammar := by
  intro k z choice value start g commands
  obtain ⟨_, hboth, hseen⟩ : ∃ op : Outcome Text × Outcome (List Answer),
      ((value.resolve 1).full g).bind (fun o =>
        ((Command.performAll 2 commands).full (o.grammar.push k (.literal ['n', 'm']))).map (o, ·)) =
          some op ∧
      (op.1.value, op.1.bounds, op.2.value, op.2.grammar.admits,
        decide (∀ e ∈ op.2.events, e.Spares k)) =
      (['n', 'm'], [2, 2], [.done, .text ['n', 'm', 'n', 'n', 'm'], .done, .number 0, .done, .done,
        .text ['n', 'm', 'n', 'm', 'm']], true, true) :=
    Option.map_eq_some_iff.1 (by decide +kernel)
  obtain ⟨o, ho, hafter⟩ := Option.bind_eq_some_iff.1 hboth
  obtain ⟨p, hp, rfl⟩ := Option.map_eq_some_iff.1 hafter
  simp only [Prod.mk.injEq, decide_eq_true_eq] at hseen
  obtain ⟨hvalue, hbounds, hanswers, hga, hspare⟩ := hseen
  have hgives : value.Gives g ['n', 'm'] o.draws o.grammar := ⟨o, ⟨1, ho⟩, hvalue, rfl, rfl⟩
  obtain ⟨hpush, hsession⟩ := push_evaluates_once hgives k
  obtain ⟨hreads, hend⟩ := hsession 2 commands p hp
  exact ⟨o, p, hgives, hbounds, hpush, hp, hanswers, hreads, hspare, (hend hspare).2 hga⟩

end Tree

end TextGrammar
