import TextGrammar.Proofs.Run.Mention
import TextGrammar.Tree.Document

/-!
# TextGrammar.Proofs.Grammar.Frame — what an evaluation may change

An evaluation that comes to an end leaves the depth, the limit and the modifiers as they were.  Of each
stack it leaves a lower part, with nothing but literal text above it; of a stack with entries at least
the bottom stays (`Run.Framed`).  One operation changes no more than that, and what two changes leave
alone is left alone by both in turn (`Tree.Relaid.trans`).  The stack of a key that no tree at hand
pushes or pops stays as it is.  Calls of modifiers do the same (`Run.evaluation_framed`).
-/

namespace TextGrammar

/-! ### Stacks -/

/-- The second stack is a lower part of the first one with literal text above it, and not less than the
bottom of the first. -/
def Tree.Relaid (before after : List Tree) : Prop :=
  ∃ above kept, after = above ++ kept ∧ (∀ t ∈ above, t.isLiteral = true) ∧ kept <:+ before ∧
    (before ≠ [] → kept ≠ [])

namespace Tree.Relaid

variable {st st₁ st₂ : List Tree}

theorem refl (st : List Tree) : Relaid st st :=
  ⟨[], st, rfl, by simp, List.suffix_rfl, id⟩

theorem ne_nil (h : Relaid st st₁) (hst : st ≠ []) : st₁ ≠ [] := by
  obtain ⟨above, kept, rfl, -, -, hne⟩ := h
  exact List.append_ne_nil_of_right_ne_nil above (hne hst)

/-- What the second change keeps of the first stack is what it keeps of the part that the first one
kept. -/
theorem trans (h : Relaid st st₁) (h' : Relaid st₁ st₂) : Relaid st st₂ := by
  have hne : st ≠ [] → st₁ ≠ [] := h.ne_nil
  obtain ⟨above, kept, rfl, hliteral, hkept, hbottom⟩ := h
  obtain ⟨above', kept', rfl, hliteral', ⟨gone, hgone⟩, hbottom'⟩ := h'
  rcases List.append_eq_append_iff.1 hgone with ⟨rest, rfl, rfl⟩ | ⟨rest, rfl, rfl⟩
  · -- some of the text laid by the first change is kept by the second
    obtain ⟨-, hrest⟩ := List.forall_mem_append.1 hliteral
    exact ⟨above' ++ rest, kept, (List.append_assoc _ _ _).symm,
      List.forall_mem_append.2 ⟨hliteral', hrest⟩, hkept, hbottom⟩
  · exact ⟨above', kept', rfl, hliteral', (List.suffix_append _ _).trans hkept,
      fun hst => hbottom' (hne hst)⟩

theorem literal (text : Text) (st : List Tree) : Relaid st (.literal text :: st) :=
  ⟨[.literal text], st, rfl, by simp [isLiteral], List.suffix_rfl, id⟩

/-- A pop leaves the last entry. -/
theorem tail (h : 1 < st.length) : Relaid st st.tail := by
  refine ⟨[], st.tail, rfl, by simp, List.tail_suffix st, fun _ hnil => ?_⟩
  have hlength := congrArg List.length hnil
  rw [List.length_tail, List.length_nil] at hlength
  omega

end Tree.Relaid

/-! ### States -/

namespace Run

/-- What an evaluation leaves as it was, from the state in front of it to the state behind it. -/
structure Framed (g h : Grammar) : Prop where
  depth : h.depth = g.depth
  maxDepth : h.maxDepth = g.maxDepth
  modifiers : h.modifiers = g.modifiers
  stack : ∀ key, Tree.Relaid (g.stack key) (h.stack key)

namespace Framed

variable {g g₁ h : Grammar}

theorem refl (g : Grammar) : Framed g g := ⟨rfl, rfl, rfl, fun key => .refl (g.stack key)⟩

theorem trans (hg : Framed g g₁) (hh : Framed g₁ h) : Framed g h where
  depth := hh.depth.trans hg.depth
  maxDepth := hh.maxDepth.trans hg.maxDepth
  modifiers := hh.modifiers.trans hg.modifiers
  stack key := (hg.stack key).trans (hh.stack key)

/-- An expansion ends at the depth at which it began. -/
theorem expand (hgh : Framed g.enter h) : Framed g h.leave where
  depth := by
    have hdepth : h.depth = g.depth + 1 := hgh.depth
    show h.depth - 1 = g.depth
    omega
  maxDepth := hgh.maxDepth
  modifiers := hgh.modifiers
  stack := hgh.stack

theorem push (g : Grammar) (key text : Text) : Framed g (g.push key (.literal text)) where
  depth := rfl
  maxDepth := rfl
  modifiers := rfl
  stack k := by
    rw [g.stack_push]
    split
    · rename_i hk
      rw [hk]
      exact .literal text _
    · exact .refl _

theorem pop (g : Grammar) (key : Text) : Framed g (g.pop key) := by
  have hstack : ∀ k, Tree.Relaid (g.stack k) ((g.pop key).stack k) := by
    intro k
    rw [g.stack_pop]
    split
    · rename_i hk
      rw [hk.1]
      exact .tail hk.2
    · exact .refl _
  obtain ⟨store, hs⟩ := g.pop_eq key
  rw [hs] at hstack ⊢
  exact ⟨rfl, rfl, rfl, hstack⟩

theorem draw (g : Grammar) {bound : Nat} (hb : bound ≠ 0) : Framed g (g.draw bound).2 := by
  rw [Grammar.draw_eq hb]
  exact ⟨rfl, rfl, rfl, fun key => .refl (g.stack key)⟩

end Framed

theorem effect_framed : Effect fun g _ h => Framed g h where
  nil := .refl
  append := .trans
  undefined _ _ := .refl _
  refuse _ _ := .refl _
  expand _ _ _ hes := .expand hes
  push := .push
  pop := .pop
  draw g _ hb := .draw g hb

/-- **What an evaluation may change.**  When the evaluation of a tree comes to an end, depth, limit and
modifiers are as before, of each stack a lower part is left with literal text above it, and not less than
the bottom.  The stack of a key is unchanged that occurs in no push and no pop of the tree or of any entry
of a stack.  The same holds of a call of a modifier, whatever value is sent through it. -/
theorem evaluation_framed (g : Grammar) :
    (∀ (t : Tree) (o : Outcome Text), t.Yields g o →
      Framed g o.grammar ∧
        ∀ key, t.Spares key → g.Spares key → o.grammar.stack key = g.stack key) ∧
    ∀ (nesting : Nat) (c : Call) (value : Text) (o : Outcome Text),
      (c.apply nesting value).full g = some o →
        Framed g o.grammar ∧
          ∀ key, (∀ p ∈ c.params, p.Spares key) → g.Spares key →
            o.grammar.stack key = g.stack key := by
  constructor
  · intro t o ho
    exact ⟨effect_framed.yields ho, fun key ht hg => ht.yields hg ho⟩
  · intro nesting c value o ho
    refine ⟨effect_framed.apply nesting c value ho, fun key hc hg => ?_⟩
    obtain ⟨hevents, -⟩ := Call.keepsTo_apply hc nesting value ho hg
    have hmoves : Moves (fun _ _ => True) g o.events o.grammar :=
      (effect_moves fun _ _ => trivial).apply nesting c value ho
    exact hmoves.stack_eq hevents

/-- Below a depth of one already, with a limit and a modifier: the tree and then the parameter of the
call take from `k` and lay text on it, and the stack of `z`, a choice that they read, stays. -/
theorem evaluation_framed_nested :
    let k : Text := ['k']
    let z : Text := ['z']
    let choice : Tree := .select [.literal ['m'], .literal ['n']]
    let relay : Tree := .concat [.pop k, .push k (.symbol z []), .symbol z []]
    let start : Grammar := { Grammar.ofSource (.fixed 1) with maxDepth := some 3, depth := 1 }
    let g := (((start.register ['f'] fun v _ => v).push z choice).push k choice).push k relay
    let call : Call := .mk ['f'] [.pop k, .push k (.symbol z [])]
    let t : Tree := .concat [.symbol k [call], .symbol ['u'] []]
    ∃ o p : Outcome Text,
      t.Yields g o ∧ o.value = ['n', '(', '(', 'u', ')', ')'] ∧
        (call.apply 1 ['v']).full g = some p ∧ p.value = ['v'] ∧ t.Spares z ∧ g.Spares z ∧
        Framed g o.grammar ∧ o.grammar.stack z = [choice] ∧
        Framed g p.grammar ∧ p.grammar.stack z = [choice] := by
  intro k z choice relay start g call t
  obtain ⟨ofTrees, ofCalls⟩ := evaluation_framed g
  have hstart : (start.register ['f'] fun v _ => v).Spares z := by
    intro key u hu
    cases hu
  have hg : g.Spares z :=
    ((hstart.push z (by decide)).push k (by decide)).push k (by decide)
  have ht : t.Spares z := by decide
  have hcall : ∀ p ∈ call.params, p.Spares z := by decide
  obtain ⟨o, ho, hvalue⟩ : ∃ o, (t.resolve 2).full g = some o ∧
      o.value = ['n', '(', '(', 'u', ')', ')'] := Option.map_eq_some_iff.1 (by decide +kernel)
  obtain ⟨p, hp, hvalue'⟩ : ∃ p, (call.apply 1 ['v']).full g = some p ∧ p.value = ['v'] :=
    Option.map_eq_some_iff.1 (by decide +kernel)
  obtain ⟨hframed, hstack⟩ := ofTrees t o ⟨2, ho⟩
  obtain ⟨hframed', hstack'⟩ := ofCalls 1 call ['v'] p hp
  exact ⟨o, p, ⟨2, ho⟩, hvalue, hp, hvalue', ht, hg, hframed, hstack z ht hg, hframed',
    hstack' z hcall hg⟩

end Run

end TextGrammar
