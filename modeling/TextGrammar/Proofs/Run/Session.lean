import TextGrammar.Grammar.Resolve
import TextGrammar.Proofs.Grammar.Stacks
import TextGrammar.Proofs.Run.Mention

/-!
# TextGrammar.Proofs.Run.Session — commands one after the other

A command evaluates something, or it changes the state by moves (`Command.perform_of_change`): so a session
makes moves as evaluations do (`Command.performAll_moves`).  A command that evaluates something lays
literal text on stacks; what the others lay there is said by `Command.Lays`.  What every move keeps is kept
by every session, whatever commands it is made of.
-/

namespace TextGrammar

namespace Grammar

variable {laid : Text → Tree → Prop}

/-- Laying values on the stacks of their keys is one move for each of them. -/
theorem makes_pushAll (g : Grammar) (entries : List (Text × Tree)) :
    g.Makes (entries.map fun e => .push e.1 e.2) (entries.map fun e => .pushed e.1)
      (g.pushAll entries) := by
  induction entries generalizing g with
  | nil => exact .nil
  | cons e entries ih => exact .cons trivial (ih (g.push e.1 e.2))

theorem pushAll_moves (g : Grammar) (entries : List (Text × Tree))
    (hlaid : ∀ e ∈ entries, laid e.1 e.2) :
    Run.Moves laid g (entries.map fun e => .pushed e.1) (g.pushAll entries) := by
  refine ⟨_, g.makes_pushAll entries, fun key value hm => ?_⟩
  obtain ⟨e, he, hpush⟩ := List.mem_map.1 hm
  obtain ⟨rfl, rfl⟩ := Move.push.inj hpush
  exact hlaid e he

theorem pushRules_moves {key : Text} {sources : List Text}
    (hlaid : ∀ s ∈ sources, laid key (Tree.parse s)) (g : Grammar) :
    Run.Moves laid g (sources.map fun _ => .pushed key) (g.pushRules key sources) := by
  have hmoves := g.pushAll_moves (sources.map fun s => (key, Tree.parse s)) (by simpa using hlaid)
  rwa [List.map_map, ← pushRules_eq_pushAll] at hmoves

theorem load_moves {rules : RuleSet}
    (hlaid : ∀ key rule, rules.get? key = some rule →
      laid key (Tree.parseAlternatives rule.alternatives)) (g : Grammar) :
    Run.Moves laid g (rules.keys.map .pushed) (g.load rules) := by
  have htrees : ∀ e ∈ rules.trees, laid e.1 e.2 := by
    intro e he
    obtain ⟨entry, hentry, rfl⟩ := List.mem_map.1 he
    exact hlaid _ _ (KeyMap.get?_eq_some_iff.2 hentry)
  have hmoves := g.pushAll_moves rules.trees htrees
  rw [RuleSet.trees, List.map_map, ← RuleSet.trees, ← load_eq_pushAll] at hmoves
  rw [KeyMap.keys, List.map_map]
  exact hmoves

end Grammar

namespace Command

/-- The command itself lays the value on the key's stack; what it evaluates does not count. -/
def Lays (key : Text) (value : Tree) : Command → Prop
  | pushRules k sources => k = key ∧ ∃ s ∈ sources, Tree.parse s = value
  | load rules => ∃ rule, rules.get? key = some rule ∧
      Tree.parseAlternatives rule.alternatives = value
  | push k v => k = key ∧ v = value
  | _ => False

section

variable {P : {α : Type} → Run α → Prop} {nesting : Nat}

/-- **A command evaluates something, or it changes the state by moves** without reading a key.  So it has
every property of evaluation that such changes have too. -/
theorem perform_of_change (h : Run.Invariant P (Tree.expander nesting)) {c : Command}
    (hchange : ∀ f es, (∀ e ∈ es, ∀ key, e.mention? ≠ some (.read key)) →
      (∀ g, Run.Moves (fun key value => c.Lays key value) g es (f g)) → P (Run.change f es)) :
    P (c.perform nesting) := by
  -- a command evaluates a tree, draws, or changes the state; `hchange` is for the last kind
  cases c with
  | flatten source => exact h.bind (h.resolve _) fun _ _ => h.pure _
  | pushRules key sources =>
    refine h.bind (hchange _ _ (by simp [Event.mention?]) ?_) fun _ _ => h.pure _
    exact Grammar.pushRules_moves fun s hs => ⟨rfl, s, hs, rfl⟩
  | load rules =>
    refine h.bind (hchange _ _ (by simp [Event.mention?]) ?_) fun _ _ => h.pure _
    exact Grammar.load_moves fun key rule hrule => ⟨rule, hrule, rfl⟩
  | register pack =>
    refine h.bind (hchange _ _ (by simp) fun g => ?_) fun _ _ => h.pure _
    rw [g.registerAll_eq]
    exact .of_move (m := .configure (g.modifiers.insertAll pack) g.source g.maxDepth) trivial (by simp)
  | setSource source =>
    refine h.bind (hchange _ _ (by simp) fun g => ?_) fun _ _ => h.pure _
    exact .of_move (m := .configure g.modifiers source g.maxDepth) trivial (by simp)
  | setMaxDepth limit =>
    refine h.bind (hchange _ _ (by simp) fun g => ?_) fun _ _ => h.pure _
    exact .of_move (m := .configure g.modifiers g.source limit) trivial (by simp)
  | push key value =>
    refine h.bind (hchange _ _ (by simp [Event.mention?]) fun g => ?_) fun _ _ => h.pure _
    exact .of_move (m := .push key value) trivial (by
      rintro _ _ ⟨⟩
      exact ⟨rfl, rfl⟩)
  | pop key =>
    refine h.bind (hchange _ _ (by simp [Event.mention?]) fun g => ?_) fun _ _ => h.pure _
    exact .of_move (m := .pop key) trivial (by simp)
  | resolve tree => exact h.bind (h.resolve tree) fun _ _ => h.pure _
  | apply call value => exact h.bind (h.apply call value) fun _ _ => h.pure _
  | draw bound => exact h.bind (h.draw bound) fun _ _ => h.pure _

/-- A property of evaluation that every command of a session has is one of the session. -/
theorem performAll_of_perform (h : Run.Invariant P (Tree.expander nesting)) {commands : List Command}
    (hperform : ∀ c ∈ commands, P (c.perform nesting)) : P (performAll nesting commands) := by
  induction commands with
  | nil => exact h.pure _
  | cons c commands ih =>
    obtain ⟨hc, hcommands⟩ := List.forall_mem_cons.1 hperform
    exact h.bind hc fun _ _ => h.bind (ih hcommands) fun _ _ => h.pure _

end

variable {laid : Text → Tree → Prop}

/-- A change of the state, when it is made of moves. -/
theorem had_change {f : Grammar → Grammar} {es : List Event} (h : ∀ g, Run.Moves laid g es (f g)) :
    Run.Effect.Had (Run.Moves laid) (Run.change f es) := by
  intro g o ho
  rw [Run.full_change] at ho
  obtain rfl := Option.some.inj ho
  exact h g

/-- **A session makes moves**, and what it lays on stacks is literal text or laid by one of its
commands. -/
theorem performAll_moves (literal : ∀ key text, laid key (.literal text)) (nesting : Nat)
    {commands : List Command}
    (hlaid : ∀ c ∈ commands, ∀ key value, c.Lays key value → laid key value) :
    Run.Effect.Had (Run.Moves laid) (performAll nesting commands) := by
  have hR := Run.effect_moves literal
  have h := hR.invariant (hR.expander nesting)
  refine performAll_of_perform h fun c hc => perform_of_change h fun f es _ hmoves => ?_
  exact had_change fun g => (hmoves g).mono (hlaid c hc)

end Command

end TextGrammar
