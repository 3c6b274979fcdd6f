import TextGrammar.Proofs.Grammar.Settings
import TextGrammar.Proofs.Run.Session
import TextGrammar.Proofs.Run.Visit
import TextGrammar.Proofs.Tree.Normal

/-!
# TextGrammar.Proofs.Grammar.Choice — draws are choices between alternatives

What is read from grammar text is a document or a choice between at least two of them, and what an
evaluation lays on a stack is literal text.  So on the stacks of a grammar that was built from settings
stand such values only, whatever has been asked of it (`Grammar.holdsValues_performAll`).  Evaluating a
value comes to values only (`Tree.Visits.value_of`), hence every draw is a choice between several
alternatives (`Grammar.draws_are_choices`).
-/

namespace TextGrammar

/-- On the stacks stand documents, and choices between at least two of them. -/
def Grammar.HoldsValues (g : Grammar) : Prop := ∀ key, ∀ t ∈ g.stack key, t.Value

theorem Tree.Value.literal (text : Text) : (Tree.literal text).Value := .document (.literal text)

theorem Run.Moves.holdsValues {g h : Grammar} {es : List Event}
    (hes : Run.Moves (fun _ t => t.Value) g es h) (hg : g.HoldsValues) : h.HoldsValues := by
  intro key t ht
  rcases hes.mem_stack ht with ht | ht
  · exact hg key t ht
  · exact ht

/-! ### Values on the stacks -/

namespace Grammar

theorem holdsValues_build (settings : List Setting) (clock : UInt64) :
    (build settings clock).HoldsValues := by
  intro key t ht
  rw [stack_build, List.mem_reverse] at ht
  obtain ⟨rules, -, hrule⟩ := List.mem_filterMap.1 ht
  obtain ⟨rule, -, rfl⟩ := Option.map_eq_some_iff.1 hrule
  exact Tree.value_parseAlternatives rule.alternatives

/-- What commands lay on stacks are values, if those are that they get as trees. -/
theorem value_of_lays {c : Command} (hc : ∀ key value, c = .push key value → value.Value) {key : Text}
    {value : Tree} (h : c.Lays key value) : value.Value := by
  cases c with
  | pushRules k sources =>
    obtain ⟨-, s, -, rfl⟩ := h
    exact .document (Tree.document_parse s)
  | load rules =>
    obtain ⟨rule, -, rfl⟩ := h
    exact Tree.value_parseAlternatives rule.alternatives
  | push k v =>
    obtain ⟨rfl, rfl⟩ := h
    exact hc _ _ rfl
  | flatten | register | setSource | setMaxDepth | pop | resolve | apply | draw => cases h

theorem holdsValues_performAll {nesting : Nat} {commands : List Command} {g : Grammar}
    {o : Outcome (List Answer)} (hg : g.HoldsValues)
    (hpushed : ∀ key value, .push key value ∈ commands → value.Value)
    (ho : (Command.performAll nesting commands).full g = some o) : o.grammar.HoldsValues := by
  have hmoves : Run.Moves (fun _ t => t.Value) g o.events o.grammar := by
    refine Command.performAll_moves (fun _ text => .literal text) nesting ?_ ho
    intro c hc key value hlays
    exact value_of_lays (fun k v hpush => hpushed k v (hpush ▸ hc)) hlays
  exact hmoves.holdsValues hg

end Grammar

/-! ### Values in an evaluation -/

namespace Tree

theorem Value.of_symbol {key : Text} {calls : List Call} (h : (symbol key calls).Value) :
    ∀ c ∈ calls, ∀ p ∈ c.params, p.Value := by
  intro c hc p hp
  cases h with
  | document h =>
    cases h with
    | symbol _ calls_ok =>
      cases calls_ok c hc with
      | mk _ documents => exact .document (documents p hp)

theorem Value.of_concat {items : List Tree} (h : (concat items).Value) : ∀ t ∈ items, t.Value := by
  intro t ht
  cases h with
  | document h =>
    cases h with
    | concat _ documents _ _ => exact .document (documents t ht)

theorem Value.of_push {key : Text} {value : Tree} (h : (push key value).Value) : value.Value := by
  cases h with
  | document h =>
    cases h with
    | push _ value_ok => exact value_ok

theorem Value.of_select {ts : List Tree} (h : (Tree.select ts).Value) :
    2 ≤ ts.length ∧ ∀ t ∈ ts, t.Value := by
  cases h with
  | document h => cases h
  | select several documents => exact ⟨several, fun t ht => .document (documents t ht)⟩

theorem Yields.holdsValues {t : Tree} {g : Grammar} {o : Outcome Text} (ho : t.Yields g o)
    (hg : g.HoldsValues) : o.grammar.HoldsValues := by
  have hmoves : Run.Moves (fun _ t => t.Value) g o.events o.grammar :=
    ho.moves fun _ text => Value.literal text
  exact hmoves.holdsValues hg

/-- **Evaluating a value comes to values only**, where values stand on the stacks. -/
theorem Visits.value_of {t u : Tree} {g h : Grammar} (hu : t.Visits g u h) (ht : t.Value)
    (hg : g.HoldsValues) : u.Value := by
  induction hu with
  | here => exact ht
  | @value key _ v _ g _ lookup _ _ ih =>
    have hv : v ∈ g.stack key := List.mem_of_head? lookup
    exact ih (hg key v hv) hg
  | @param key name before after ps qs p u g h o o' _ _ applied _ evaluated _ ih =>
    have hstate : o'.grammar.HoldsValues := evaluated.holdsValues (applied.holdsValues hg)
    -- the calls and the parameters before it may have changed the stacks, but they lay values only
    have hp : p.Value := ht.of_symbol (.mk name (ps ++ p :: qs)) (by simp) p
      (List.mem_append_right ps List.mem_cons_self)
    exact ih hp hstate
  | @item ts us t _ g _ o evaluated _ ih =>
    exact ih (ht.of_concat t (by simp)) (evaluated.holdsValues hg)
  | pushed _ ih => exact ih ht.of_push hg
  | @alternative ts t _ g _ drawn _ ih =>
    have hdraw : (g.draw ts.length).2.HoldsValues := by
      intro key v hv
      rw [g.stack_draw] at hv
      exact hg key v hv
    exact ih (ht.of_select.2 t (List.mem_of_getElem? drawn)) hdraw

/-- A draw asked by a choice is below the number of its alternatives. -/
theorem AsksAt.index_lt {t : Tree} {g : Grammar} {bound index : Nat} (h : t.AsksAt g bound index) :
    index < bound := by
  obtain ⟨ts, g', -, -, hbound, rfl⟩ := h
  exact g'.draw_lt hbound

end Tree

namespace Grammar

/-- **Draws are always real choices and always in range.**

A grammar that was built from settings has values on its stacks only, whatever has been asked of it, if
those are values that were pushed as trees.  So every choice to which a further flattening comes,
whether or not it comes to an end, is one between at least two alternatives, and every draw of it is
asked by such a choice, below the number of its alternatives.

From any state and of any tree, every draw is asked by a choice of the evaluation, below the number of
its alternatives.  A choice draws one index, and then it is the alternative at this index; without
alternatives it draws nothing. -/
theorem draws_are_choices :
    (∀ (settings : List Setting) (clock : UInt64) (nesting : Nat) (commands : List Command)
        (o : Outcome (List Answer)),
      (∀ key value, .push key value ∈ commands → value.Value) →
      (Command.performAll nesting commands).full (build settings clock) = some o →
        o.grammar.HoldsValues ∧
        (∀ (s : Text) (ts : List Tree) (h : Grammar),
          (Tree.parse s).Visits o.grammar (.select ts) h → 2 ≤ ts.length) ∧
        ∀ (n : Nat) (s : Text) (p : Outcome Text), (Run.flatten n s).full o.grammar = some p →
          ∀ bound index, .drawn bound index ∈ p.events →
            2 ≤ bound ∧ index < bound ∧ (Tree.parse s).AsksAt o.grammar bound index) ∧
    (∀ (t : Tree) (g : Grammar) (p : Outcome Text), t.Yields g p →
      ∀ bound index, .drawn bound index ∈ p.events → index < bound ∧ t.AsksAt g bound index) ∧
    ∀ (g : Grammar) (expand : Tree → Run (Chain Char)),
      ((Tree.select []).writeWith expand).full g = some ⟨∅, ∅, g⟩ ∧
      ∀ ts, ts ≠ [] → ∃ t, ts[(g.draw ts.length).1]? = some t ∧
        ((Tree.select ts).writeWith expand).full g =
          ((t.writeWith expand).full (g.draw ts.length).2).map fun o =>
            o.behind (⟨(), .ofList [.drawn ts.length (g.draw ts.length).1], (g.draw ts.length).2⟩ :
              Outcome Unit) := by
  refine ⟨?_, fun t g p hp bound index he => ⟨(hp.asksAt he).index_lt, hp.asksAt he⟩, ?_⟩
  · intro settings clock nesting commands o hpushed ho
    have hvalues : o.grammar.HoldsValues :=
      holdsValues_performAll (holdsValues_build settings clock) hpushed ho
    have hseveral : ∀ s ts h, (Tree.parse s).Visits o.grammar (.select ts) h → 2 ≤ ts.length := by
      intro s ts h hvisits
      -- a parsed text is a document, so with values on the stacks all that it comes to is a value
      have hparse : (Tree.parse s).Value := .document (Tree.document_parse s)
      exact (hvisits.value_of hparse hvalues).of_select.1
    refine ⟨hvalues, hseveral, fun n s p hp bound index he => ?_⟩
    have hyields : (Tree.parse s).Yields o.grammar p := ⟨n, hp⟩
    have hasks := hyields.asksAt he
    refine ⟨?_, hasks.index_lt, hasks⟩
    obtain ⟨ts, h, hvisits, rfl, -, -⟩ := hasks
    exact hseveral s ts h hvisits
  · intro g expand
    refine ⟨Tree.full_writeWith_select_nil expand g, fun ts hts => ?_⟩
    obtain ⟨t, ht⟩ := Tree.exists_getElem?_draw hts g
    exact ⟨t, ht, Tree.full_writeWith_select ht expand⟩

/-- A rule with two alternatives, one of which lays one of three texts on a stack, under a source that
answers beyond every bound. -/
theorem draws_are_choices_nested :
    let rules : RuleSet := KeyMap.ofList
      [(['a'], .many ["x".toList, "[b:1,2,3]#b#".toList]), (['c'], .many [])]
    let settings : List Setting := [.source (.fixed 5), .rules rules]
    let commands : List Command := [.pushRules ['b'] ["#a#".toList], .flatten "#a##b#[b:POP]".toList,
      .register [(['f'], fun s _ => s)], .setMaxDepth (some 7), .load rules]
    ∃ o p, (Command.performAll 4 commands).full (build settings 0) = some o ∧
      (Run.flatten 4 "#c##a.f(#a#)##b#".toList).full o.grammar = some p ∧ o.grammar.HoldsValues ∧
        p.bounds = [2, 3, 2, 3] ∧ p.indices = [1, 2, 1, 2] ∧
        ∀ bound index, .drawn bound index ∈ p.events → 2 ≤ bound ∧ index < bound := by
  intro rules settings commands
  obtain ⟨o, ho, hov⟩ : ∃ o, (Command.performAll 4 commands).full (build settings 0) = some o ∧
      ((Run.flatten 4 "#c##a.f(#a#)##b#".toList).full o.grammar).map
        (fun p => (p.bounds, p.indices)) = some ([2, 3, 2, 3], [1, 2, 1, 2]) :=
    Option.map_eq_some_iff.1 (by decide +kernel)
  obtain ⟨p, hp, hpv⟩ := Option.map_eq_some_iff.1 hov
  obtain ⟨hbounds, hindices⟩ := Prod.mk.inj hpv
  have hpushed : ∀ key value, .push key value ∈ commands → value.Value := by
    intro key value hmem
    simp [commands] at hmem
  obtain ⟨hvalues, -, hdraws⟩ := draws_are_choices.1 settings 0 4 commands o hpushed ho
  refine ⟨o, p, ho, hp, hvalues, hbounds, hindices, fun bound index he => ?_⟩
  have hdrawn := hdraws 4 _ p hp bound index he
  exact ⟨hdrawn.1, hdrawn.2.1⟩

end Grammar

end TextGrammar
