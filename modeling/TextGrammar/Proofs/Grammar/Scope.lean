import TextGrammar.Proofs.Run.Mention
import TextGrammar.Proofs.Run.Rules

/-!
# TextGrammar.Proofs.Grammar.Scope — an assignment around a tree

A value can be laid on the stack of a key, a tree evaluated, and the value taken away again.  If the tree
does not change that stack, and no entry of a stack does, the value is still on top when the tree has
been evaluated.  So it is what the pop takes, and the stack is as the value left it
(`Tree.gives_scoped`); only where nothing stands below, the value stays, for a pop leaves the last entry.
-/

namespace TextGrammar

/-- **A tree that spares a key gives its stack back.** -/
theorem Tree.Spares.gives {key : Text} {t : Tree} (ht : t.Spares key) {g h : Grammar}
    (hg : g.Spares key) {text : Text} {draws : List Event} (hgives : t.Gives g text draws h) :
    h.stack key = g.stack key := by
  obtain ⟨o, ho, rfl, rfl, rfl⟩ := hgives
  exact ht.yields hg ho

/-- A literal laid on a stack spares every key. -/
theorem Grammar.Spares.push_literal {key : Text} {g : Grammar} (hg : g.Spares key) (k text : Text) :
    (g.push k (.literal text)).Spares key :=
  MentionsOnly.push hg k (Tree.MentionsOnly.literal text)

/-- The pop takes the top entry, unless nothing stands below it. -/
theorem Grammar.stack_pop_of_stack {g : Grammar} {key : Text} {top : Tree} {rest : List Tree}
    (hst : g.stack key = top :: rest) :
    (g.pop key).stack key = if rest.isEmpty then [top] else rest := by
  rw [g.stack_pop, hst]
  cases rest <;> simp

namespace Tree

variable {g : Grammar} {key : Text}

/-- What stands between a push and a pop is evaluated after the value, from the state with its text on
top. -/
theorem gives_between {value body : Tree} {text : Text} {draws : List Event} {h : Grammar} :
    (concat [push key value, body, pop key]).Gives g text draws h ↔
      ∃ w draws₁ g₁ draws₂ g₂, value.Gives g w draws₁ g₁ ∧
        body.Gives (g₁.push key (.literal w)) text draws₂ g₂ ∧ draws = draws₁ ++ draws₂ ∧
          h = g₂.pop key := by
  constructor
  · intro hgives
    -- the row is taken apart item by item: the push has no text, the pop neither text nor draws
    obtain ⟨_, draws₁, _, _, _, hpush, htail, rfl, rfl⟩ := gives_concat_cons.1 hgives
    obtain ⟨rfl, w, g₁, hvalue, rfl⟩ := gives_push.1 hpush
    obtain ⟨text, draws₂, g₂, _, _, hbody, hlast, rfl, rfl⟩ := gives_concat_cons.1 htail
    obtain ⟨_, _, _, _, _, hpop, hend, rfl, rfl⟩ := gives_concat_cons.1 hlast
    obtain ⟨rfl, rfl, rfl⟩ := gives_pop.1 hpop
    obtain ⟨rfl, rfl, rfl⟩ := gives_concat_nil.1 hend
    refine ⟨w, draws₁, g₁, draws₂, g₂, hvalue, ?_, by simp, rfl⟩
    simpa using hbody
  · rintro ⟨w, draws₁, g₁, draws₂, g₂, hvalue, hbody, rfl, rfl⟩
    have hpush : (push key value).Gives g [] draws₁ (g₁.push key (.literal w)) :=
      gives_push.2 ⟨rfl, w, g₁, hvalue, rfl⟩
    have hpop : (concat [pop key]).Gives g₂ [] [] (g₂.pop key) :=
      gives_concat_cons.2 ⟨[], [], g₂.pop key, [], [], gives_pop.2 ⟨rfl, rfl, rfl⟩,
        gives_concat_nil.2 ⟨rfl, rfl, rfl⟩, rfl, rfl⟩
    have hrest : (concat [body, pop key]).Gives (g₁.push key (.literal w)) text draws₂ (g₂.pop key) :=
      gives_concat_cons.2 ⟨text, draws₂, g₂, [], [], hbody, hpop, by simp, by simp⟩
    exact gives_concat_cons.2 ⟨[], draws₁, _, text, draws₂, hpush, hrest, rfl, rfl⟩

/-- **A local assignment is scoped.**  Between a push of a key and a pop of it a tree is evaluated that
does not change its stack, and no entry of a stack changes it.  That comes to an end exactly if the value
does, and then the tree, from the state with the value's text on top; their draws are all that is drawn,
and the text is that of the tree.  Behind it the key has the stack that the value left, or if it left none,
the value's text alone.  All other stacks are those that the tree left. -/
theorem gives_scoped {body : Tree} (hbody : body.Spares key) (hg : g.Spares key) (value : Tree)
    (text : Text) (draws : List Event) (h : Grammar) :
    (concat [push key value, body, pop key]).Gives g text draws h ↔
      ∃ w draws₁ g₁ draws₂ g₂, value.Gives g w draws₁ g₁ ∧
        body.Gives (g₁.push key (.literal w)) text draws₂ g₂ ∧ draws = draws₁ ++ draws₂ ∧
          h = g₂.pop key ∧
          h.stack key = (if (g₁.stack key).isEmpty then [.literal w] else g₁.stack key) ∧
          ∀ k, k ≠ key → h.stack k = g₂.stack k := by
  rw [gives_between]
  constructor
  · rintro ⟨w, draws₁, g₁, draws₂, g₂, hvalue, hgives, rfl, rfl⟩
    have hspares : g₁.Spares key := by
      obtain ⟨o, ho, -, -, rfl⟩ := hvalue
      exact hg.yields ho
    have htop : g₂.stack key = .literal w :: g₁.stack key := by
      rw [hbody.gives (hspares.push_literal key w) hgives, g₁.stack_push, if_pos rfl]
    refine ⟨w, draws₁, g₁, draws₂, g₂, hvalue, hgives, rfl, rfl, g₂.stack_pop_of_stack htop, ?_⟩
    intro k hk
    rw [g₂.stack_pop, if_neg fun hand => hk hand.1]
  · rintro ⟨w, draws₁, g₁, draws₂, g₂, hvalue, hgives, rfl, rfl, -, -⟩
    exact ⟨w, draws₁, g₁, draws₂, g₂, hvalue, hgives, rfl, rfl⟩

/-- A value that changes the stack of its own key, and a tree that reads the key through a rule with a
choice in it.  Then the same tree where the key has no value. -/
theorem gives_scoped_own :
    let k : Text := ['k']
    let r : Text := ['r']
    let choice : Tree := .select [.literal ['m'], .literal ['n']]
    let own : Tree := .concat [.pop k, .push k choice, .literal ['v']]
    let body : Tree := .concat [.symbol k [], .symbol r []]
    let around (value : Tree) : Tree := .concat [.push k value, body, .pop k]
    let bare := (Grammar.ofSource (.fixed 1)).push r (.concat [choice, .symbol k []])
    let g := (bare.push k (.literal ['y'])).push k choice
    body.Spares k ∧ g.Spares k ∧ bare.Spares k ∧
      (∃ draws h, (around own).Gives g ['v', 'n', 'v'] draws h ∧
        h.stack k = [.literal ['n'], .literal ['y']]) ∧
      ∃ draws h, (around choice).Gives bare ['n', 'n', 'n'] draws h ∧ h.stack k = [.literal ['n']] := by
  intro k r choice own body around bare g
  have hbody : body.Spares k := by decide
  have hbare : bare.Spares k := by
    refine Grammar.MentionsOnly.push ?_ r (by decide)
    rintro _ _ ⟨⟩
  have hg : g.Spares k := (hbare.push k (by decide)).push k (by decide)
  obtain ⟨o, ho, hout⟩ : ∃ o, ((around own).resolve 2).full g = some o ∧ o.value = ['v', 'n', 'v'] :=
    Option.map_eq_some_iff.1 (by decide +kernel)
  obtain ⟨p, hp, hown⟩ : ∃ p, (own.resolve 0).full g = some p ∧
      p.grammar.stack k = [.literal ['n'], .literal ['y']] := Option.map_eq_some_iff.1 (by rfl)
  have hgives : (around own).Gives g ['v', 'n', 'v'] o.draws o.grammar := ⟨o, ⟨2, ho⟩, hout, rfl, rfl⟩
  obtain ⟨_, _, _, _, _, ⟨q, hq, rfl, rfl, rfl⟩, -, -, -, hstack, -⟩ :=
    (gives_scoped hbody hg own _ _ _).1 hgives
  -- there is one way only in which the value is evaluated, so the theorem speaks of this one
  obtain rfl := hq.unique ⟨0, hp⟩
  rw [hown] at hstack
  obtain ⟨o', ho', hout'⟩ : ∃ o, ((around choice).resolve 2).full bare = some o ∧
      o.value = ['n', 'n', 'n'] := Option.map_eq_some_iff.1 (by decide +kernel)
  obtain ⟨p', hp', hchoice⟩ : ∃ p, (choice.resolve 0).full bare = some p ∧
      (p.value, p.grammar.stack k) = (['n'], []) := Option.map_eq_some_iff.1 (by rfl)
  obtain ⟨hvalue, hnone⟩ := Prod.mk.inj hchoice
  have hgives' : (around choice).Gives bare ['n', 'n', 'n'] o'.draws o'.grammar :=
    ⟨o', ⟨2, ho'⟩, hout', rfl, rfl⟩
  obtain ⟨_, _, _, _, _, ⟨q', hq', rfl, rfl, rfl⟩, -, -, -, hstack', -⟩ :=
    (gives_scoped hbody hbare choice _ _ _).1 hgives'
  obtain rfl := hq'.unique ⟨0, hp'⟩
  rw [hnone, hvalue] at hstack'
  exact ⟨hbody, hg, hbare, ⟨_, _, hgives, hstack⟩, _, _, hgives', hstack'⟩

end Tree

end TextGrammar
