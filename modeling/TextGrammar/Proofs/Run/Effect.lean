import TextGrammar.Proofs.Run.Invariant

/-!
# TextGrammar.Proofs.Run.Effect — what an evaluation that ends has done

An effect relates the state in which a run starts, its events, and the state in which it ends.  Where
effects of single operations are put one behind the other, and around the expansion of a key, the effect
is that of every evaluation that comes to an end (`Run.Effect.yields`).
-/

namespace TextGrammar

namespace Run

/-- A relation between states, with the events between them, that every operation of evaluation
keeps to. -/
structure Effect (R : Grammar → List Event → Grammar → Prop) : Prop where
  nil : ∀ g, R g [] g
  append : ∀ {g g₁ g₂ es fs}, R g es g₁ → R g₁ fs g₂ → R g (es ++ fs) g₂
  undefined : ∀ {g} key, g.lookup key = none → R g [.undefined key] g
  refuse : ∀ {g} key, g.admits = false → R g [.refused key] g
  expand : ∀ {g h es} key text, g.admits = true → R g.enter es h →
    R g (.entered key (g.depth + 1) :: es ++ [.expanded key text]) h.leave
  push : ∀ g key text, R g [.pushed key] (g.push key (.literal text))
  pop : ∀ g key, R g [.popped key] (g.pop key)
  draw : ∀ g {bound}, bound ≠ 0 → R g [.drawn bound (g.draw bound).1] (g.draw bound).2

namespace Effect

variable {R : Grammar → List Event → Grammar → Prop}

/-- The run, when it comes to an end, has had the effect. -/
def Had (R : Grammar → List Event → Grammar → Prop) {α : Type} (x : Run α) : Prop :=
  ∀ ⦃g o⦄, x.full g = some o → R g o.events o.grammar

theorem pure (hR : Effect R) {α : Type} (a : α) : Had R (pure a : Run α) := by
  intro g o ho
  obtain rfl := Option.some.inj ho
  exact hR.nil g

theorem bind (hR : Effect R) {α β : Type} {x : Run α} {f : α → Run β} (hx : Had R x)
    (hf : ∀ a, x.MayYield a → Had R (f a)) : Had R (x >>= f) := by
  intro g q hq
  obtain ⟨o, p, ho, hp, rfl⟩ := full_bind_eq_some.1 hq
  have hRp := hf o.value ⟨g, o, ho, rfl⟩ hp
  rw [Outcome.events_behind]
  exact hR.append (hx ho) hRp

theorem read (hR : Effect R) {expand : Tree → Run (Chain Char)} (he : ∀ v, Had R (expand v))
    (key : Text) {f : Chain Char → Run (Chain Char)} (hf : ∀ a, Had R (f a)) :
    Had R (Run.read key expand f) := by
  intro g q hq
  obtain ⟨hg, rfl⟩ | ⟨v, hg, hga, rfl⟩ | ⟨v, o, p, hg, hga, ho, hp, rfl⟩ := full_read_cases hq
  · exact hR.undefined key hg
  · exact hR.refuse key hga
  · have hexpand := hR.expand key o.value hga (he v ho)
    have hall := hR.append hexpand (hf o.value hp)
    simpa using hall

theorem modify (hR : Effect R) (name : Text) (a : Chain Char) {x : Run (List (Chain Char))}
    (hx : Had R x) : Had R (Run.modify name a x) := by
  intro g q hq
  obtain ⟨hg, rfl⟩ | ⟨f, o, hg, ho, rfl⟩ := full_modify_cases hq
  · exact hR.nil g
  · exact hx ho

theorem draw_had (hR : Effect R) (bound : Nat) : Had R (Run.draw bound) := by
  intro g o ho
  by_cases hb : bound = 0
  · subst hb
    rw [full_draw_zero] at ho
    obtain rfl := Option.some.inj ho
    exact hR.nil g
  · rw [full_draw hb] at ho
    obtain rfl := Option.some.inj ho
    exact hR.draw g hb

theorem invariant (hR : Effect R) {expand : Tree → Run (Chain Char)}
    (he : ∀ v, Had R (expand v)) : Invariant (Had R) expand where
  pure := hR.pure
  bind := hR.bind
  read _ hf := hR.read he _ hf
  modify := hR.modify
  push := by
    intro key text _ g o ho
    rw [full_push] at ho
    obtain rfl := Option.some.inj ho
    exact hR.push g key text
  pop := by
    intro key _ g o ho
    rw [full_pop] at ho
    obtain rfl := Option.some.inj ho
    exact hR.pop g key
  draw := hR.draw_had

theorem write (hR : Effect R) (nesting : Nat) (t : Tree) : Had R (t.write nesting) :=
  Invariant.write hR.invariant (fun _ _ h => by cases h) nesting t

theorem expander (hR : Effect R) (nesting : Nat) (t : Tree) : Had R (Tree.expander nesting t) := by
  cases nesting with
  | zero =>
    intro g o ho
    cases ho
  | succ nesting => exact hR.write nesting t

/-- A call of a modifier has had the effect too. -/
theorem apply (hR : Effect R) (nesting : Nat) (c : Call) (value : Text) :
    Had R (c.apply nesting value) :=
  Invariant.apply (hR.invariant (hR.expander nesting)) c value

/-- **Every evaluation that ends has had the effect.** -/
theorem yields (hR : Effect R) {t : Tree} {g : Grammar} {o : Outcome Text} (ho : t.Yields g o) :
    R g o.events o.grammar := by
  obtain ⟨nesting, p, hp, rfl⟩ := ho.exists_write
  exact hR.write nesting t hp

end Effect

end Run

end TextGrammar
