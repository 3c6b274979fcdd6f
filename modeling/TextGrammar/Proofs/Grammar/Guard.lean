import TextGrammar.Proofs.Run.Depth

/-!
# TextGrammar.Proofs.Grammar.Guard — the guard stops every expansion

Under a guard every evaluation comes to an end (`Tree.exists_yields`), whatever the rules, modifiers and
source are, and the nesting that is granted for it is enough (`Tree.resolve_guarded`).  What decreases
is the number of expansions that the guard still lets begin: the recursion on trees begins anew with
each of them, on a tree that is fetched from the state, but one level deeper.
-/

namespace TextGrammar

/-- The state is guarded by a limit and stands at a depth. -/
def Grammar.At (limit depth : Nat) (g : Grammar) : Prop := g.maxDepth = some limit ∧ g.depth = depth

namespace Grammar.At

variable {limit depth : Nat} {g : Grammar}

theorem enter (hg : g.At limit depth) : g.enter.At limit (depth + 1) :=
  ⟨hg.1, congrArg (· + 1) hg.2⟩

theorem leave (hg : g.At limit (depth + 1)) : g.leave.At limit depth :=
  ⟨hg.1, congrArg (· - 1) hg.2⟩

theorem lt_of_admits (hg : g.At limit depth) (h : g.admits = true) : depth < limit := by
  unfold Grammar.admits at h
  rw [hg.1, hg.2] at h
  simpa using h

theorem admits_eq_false (hg : g.At limit depth) (h : limit ≤ depth) : g.admits = false := by
  unfold Grammar.admits
  rw [hg.1, hg.2]
  simpa using h

end Grammar.At

namespace Run

/-- Guarded by the limit and started at the depth, the run comes to an end there. -/
def Ends (limit depth : Nat) {α : Type} (x : Run α) : Prop :=
  ∀ ⦃g : Grammar⦄, g.At limit depth → ∃ o, x.full g = some o ∧ o.grammar.At limit depth

variable {limit depth : Nat}

theorem Ends.bind {α β : Type} {x : Run α} {f : α → Run β} (hx : x.Ends limit depth)
    (hf : ∀ a, x.MayYield a → (f a).Ends limit depth) : (x >>= f).Ends limit depth := by
  intro g hg
  obtain ⟨o, ho, hgo⟩ := hx hg
  obtain ⟨p, hp, hgp⟩ := hf o.value ⟨g, o, ho, rfl⟩ hgo
  exact ⟨_, full_bind_eq_some.2 ⟨o, p, ho, hp, rfl⟩, hgp⟩

/-- Only a key that is admitted is expanded, so only below the limit must expansions come to an end,
and only one level deeper. -/
theorem Ends.read {expand : Tree → Run (Chain Char)}
    (he : depth < limit → ∀ v, (expand v).Ends limit (depth + 1)) (key : Text)
    {f : Chain Char → Run (Chain Char)} (hf : ∀ a, (f a).Ends limit depth) :
    (Run.read key expand f).Ends limit depth := by
  intro g hg
  cases hv : g.lookup key with
  | none => exact ⟨_, full_read_undefined hv, hg⟩
  | some v =>
    by_cases hga : g.admits = true
    · obtain ⟨o, ho, hgo⟩ := he (hg.lt_of_admits hga) v hg.enter
      obtain ⟨p, hp, hgp⟩ := hf o.value hgo.leave
      exact ⟨_, full_read_admitted hv hga ho hp, hgp⟩
    · exact ⟨_, full_read_refused hv (by simpa using hga), hg⟩

theorem Ends.modify (name : Text) (a : Chain Char) {x : Run (List (Chain Char))}
    (hx : x.Ends limit depth) : (Run.modify name a x).Ends limit depth := by
  intro g hg
  cases hf : g.modifiers.get? name with
  | none => exact ⟨_, full_modify_unregistered hf, hg⟩
  | some f =>
    obtain ⟨o, ho, hgo⟩ := hx hg
    exact ⟨_, full_modify_registered hf ho, hgo⟩

theorem ends_pop (key : Text) : (pop key).Ends limit depth := by
  intro g hg
  refine ⟨_, full_pop key g, ?_⟩
  obtain ⟨s, hs⟩ := Grammar.pop_eq g key
  rw [hs]
  exact hg

theorem ends_draw (bound : Nat) : (draw bound).Ends limit depth := by
  intro g hg
  by_cases hb : bound = 0
  · subst hb
    exact ⟨_, full_draw_zero g, hg⟩
  · refine ⟨_, full_draw hb g, ?_⟩
    rw [Grammar.draw_eq hb]
    exact hg

theorem invariant_ends {expand : Tree → Run (Chain Char)}
    (he : depth < limit → ∀ v, (expand v).Ends limit (depth + 1)) :
    Invariant (Ends limit depth) expand where
  pure a g hg := ⟨_, full_pure a g, hg⟩
  bind := .bind
  read _ hf := .read he _ hf
  modify := .modify
  push _ _ g hg := ⟨_, full_push _ _ g, hg⟩
  pop _ := ends_pop _
  draw := ends_draw

end Run

namespace Tree

/-- By induction on the nesting, with the depth as far below the limit as nesting is left. -/
theorem write_ends {limit depth nesting : Nat} (h : limit ≤ depth + nesting) (t : Tree) :
    (t.write nesting).Ends limit depth := by
  induction nesting generalizing t depth with
  | zero => exact (Run.invariant_ends fun hlt => absurd hlt (by omega)).writeWith t
  | succ nesting ih => exact (Run.invariant_ends fun _ v => ih (by omega) v).writeWith t

/-- **The nesting that is granted under a guard is enough.** -/
theorem exists_full_resolve {g : Grammar} {limit : Nat} (hg : g.maxDepth = some limit) (t : Tree) :
    ∃ o, (t.resolve g.nesting).full g = some o := by
  have hnesting : g.nesting = limit - g.depth := by
    rw [Grammar.nesting, hg]
  have hends : (t.write g.nesting).Ends limit g.depth := write_ends (by omega) t
  obtain ⟨o, ho, -⟩ := hends ⟨hg, rfl⟩
  exact ⟨_, by rw [full_resolve, ho]; rfl⟩

/-- **Under a guard every evaluation comes to an end.** -/
theorem exists_yields {g : Grammar} {limit : Nat} (hg : g.maxDepth = some limit) (t : Tree) :
    ∃ o, t.Yields g o := by
  obtain ⟨o, ho⟩ := exists_full_resolve hg t
  exact ⟨o, g.nesting, ho⟩

/-- **A refused symbol is left alone**: its value, its calls and their parameters are not looked at. -/
theorem full_writeWith_refused {g : Grammar} {limit : Nat} (hg : g.maxDepth = some limit)
    (hd : limit ≤ g.depth) {key : Text} (hkey : (g.lookup key).isSome = true) (calls : List Call)
    (expand : Tree → Run (Chain Char)) :
    ((symbol key calls).writeWith expand).full g =
      some ⟨.ofList (unresolvedKey key), .ofList [.refused key], g⟩ := by
  obtain ⟨v, hv⟩ := Option.isSome_iff_exists.1 hkey
  have hat : g.At limit g.depth := ⟨hg, rfl⟩
  rw [writeWith_symbol]
  exact Run.full_read_refused hv (hat.admits_eq_false hd)

/-- **The guard always stops expansion.**  Whatever the state holds, evaluation comes to an end with
the nesting granted; no expansion begins where the limit is reached, so the limit is never exceeded from
a depth within it; and where the limit is reached, a key with a value stands for itself in parentheses,
no matter which calls follow it and how values would be expanded. -/
theorem resolve_guarded {g : Grammar} {limit : Nat} (hg : g.maxDepth = some limit) (t : Tree) :
    (∃ o, (t.resolve g.nesting).full g = some o) ∧
      (∀ o, t.Yields g o →
        (∀ before key depth after, o.events = before ++ .entered key depth :: after →
          before.foldl Event.depthBehind g.depth < limit ∧
            depth = before.foldl Event.depthBehind g.depth + 1) ∧
        (g.depth ≤ limit → ∀ depth ∈ o.depths g.depth, depth ≤ limit)) ∧
      ∀ h : Grammar, h.maxDepth = some limit → limit ≤ h.depth →
        ∀ key calls expand, (h.lookup key).isSome = true →
          ((symbol key calls).writeWith expand).full h =
            some ⟨.ofList (unresolvedKey key), .ofList [.refused key], h⟩ := by
  refine ⟨exists_full_resolve hg t, fun o ho => ⟨?_, ?_⟩, ?_⟩
  · intro before key depth after he
    have hb := ho.balanced
    have hle : depth ≤ limit := hb.guarded limit hg (.entered key depth) (by simp [he]) depth rfl
    have hst := hb.stepwise
    rw [he, Event.stepwise_append] at hst
    have hstep : depth = before.foldl Event.depthBehind g.depth + 1 := hst.2.1 depth rfl
    exact ⟨by omega, hstep⟩
  · intro hd
    exact Event.depths_le (ho.balanced.guarded limit hg) hd
  · intro h hh hd key calls expand hkey
    exact full_writeWith_refused hh hd hkey calls expand

/-- A rule that reads itself, under a limit of three expansions. -/
theorem resolve_guarded_loop :
    let rule : Tree := concat [symbol ['l'] [], literal ['x']]
    let g := { Grammar.ofSource (.fixed 0) with maxDepth := some 3 }.push ['l'] rule
    g.maxDepth = some 3 ∧ ∃ o, (rule.resolve g.nesting).full g = some o ∧
      o.value = unresolvedKey ['l'] ++ ['x', 'x', 'x', 'x'] ∧
      ∀ depth ∈ o.depths g.depth, depth ≤ 3 := by
  intro rule g
  obtain ⟨o, ho, hov⟩ : ∃ o, (rule.resolve g.nesting).full g = some o ∧
      o.value = unresolvedKey ['l'] ++ ['x', 'x', 'x', 'x'] :=
    Option.map_eq_some_iff.1 (by decide +kernel)
  have hg : g.maxDepth = some 3 := rfl
  have hdepths := ((resolve_guarded hg rule).2.1 o ⟨g.nesting, ho⟩).2 (by decide)
  exact ⟨hg, o, ho, hov, hdepths⟩

end Tree

end TextGrammar
