import TextGrammar.Proofs.Run.Lifting

/-!
# TextGrammar.Proofs.Run.Invariant — properties of a single run

A property of runs that every operation of evaluation has, and that is kept from one run to the next,
is a property of evaluation (`Run.Invariant.writeWith`, `Run.Invariant.write`).  Where only some
operations on keys have it, it is a property of evaluating trees that contain no others
(`Run.InvariantOn.writeWith`).  It is a lifting that looks at one side only.
-/

namespace TextGrammar

namespace Run

/-- The run comes to an end with the value from some state. -/
def MayYield {α : Type} (x : Run α) (a : α) : Prop := ∃ g o, x.full g = some o ∧ o.value = a

/-- The operations of evaluation have the property `P`, those on keys as far as they are allowed, with
`expand` for the values of keys. -/
structure InvariantOn (may : Mention → Prop) (P : {α : Type} → Run α → Prop)
    (expand : Tree → Run (Chain Char)) : Prop where
  pure : ∀ {α : Type} (a : α), P (pure a)
  bind : ∀ {α β : Type} {x : Run α} {f : α → Run β}, P x → (∀ a, x.MayYield a → P (f a)) →
    P (x >>= f)
  read : ∀ {key} {f : Chain Char → Run (Chain Char)}, may (.read key) → (∀ a, P (f a)) →
    P (Run.read key expand f)
  modify : ∀ name a {x : Run (List (Chain Char))}, P x → P (Run.modify name a x)
  push : ∀ {key} text, may (.push key) → P (Run.push key (.literal text))
  pop : ∀ {key}, may (.pop key) → P (Run.pop key)
  draw : ∀ bound, P (Run.draw bound)

/-- All operations of evaluation have the property `P`, with `expand` for the values of keys. -/
abbrev Invariant (P : {α : Type} → Run α → Prop) (expand : Tree → Run (Chain Char)) : Prop :=
  InvariantOn (fun _ => True) P expand

section

variable {may : Mention → Prop} {P : {α : Type} → Run α → Prop} {expand : Tree → Run (Chain Char)}

namespace InvariantOn

/-- The property for the run on the left, whose values must have partners. -/
def lifting (h : InvariantOn may P expand) : Lifting where
  Holds V x _ := P x ∧ ∀ a, x.MayYield a → ∃ b, V a b
  pure := by
    intro α β V a b hab
    refine ⟨h.pure a, ?_⟩
    rintro _ ⟨g, o, ho, rfl⟩
    obtain rfl := Option.some.inj ho
    exact ⟨b, hab⟩
  bind := by
    rintro α β γ δ V W x y f k ⟨hx, hV⟩ hfk
    refine ⟨h.bind hx fun a ha => ?_, ?_⟩
    · obtain ⟨b, hb⟩ := hV a ha
      exact (hfk a b hb).1
    · rintro _ ⟨g, q, hq, rfl⟩
      obtain ⟨o, p, ho, hp, rfl⟩ := full_bind_eq_some.1 hq
      obtain ⟨b, hb⟩ := hV o.value ⟨g, o, ho, rfl⟩
      exact (hfk o.value b hb).2 p.value ⟨o.grammar, p, hp, rfl⟩

theorem evaluates (h : InvariantOn may P expand) :
    h.lifting.Evaluates (fun t u => t = u ∧ t.MentionsOnly may) (fun _ _ => True) may .all expand
      expand where
  layer := by
    rintro t u ⟨rfl, ht⟩
    exact ht.layer.imp fun _ _ _ => trivial
  nil := trivial
  append _ _ := trivial
  read hkey hfk := ⟨h.read hkey fun a => (hfk a a trivial).1, fun _ _ => ⟨∅, trivial⟩⟩
  modify _ hx := ⟨h.modify _ _ (hx trivial).1, fun _ _ => ⟨∅, trivial⟩⟩
  push hkey _ := ⟨h.push _ hkey, fun _ _ => ⟨(), trivial⟩⟩
  pop hkey := ⟨h.pop hkey, fun _ _ => ⟨(), trivial⟩⟩
  draw bound := ⟨h.draw bound, fun i _ => ⟨i, rfl, fun _ => trivial⟩⟩

/-- **Evaluation has the property** on every tree that contains only what is allowed. -/
theorem writeWith (h : InvariantOn may P expand) {t : Tree} (ht : t.MentionsOnly may) :
    P (t.writeWith expand) :=
  (h.evaluates.writeWith ⟨rfl, ht⟩).1

/-- A call has the property too, for its parameters have. -/
theorem applyWith (h : InvariantOn may P expand) {name : Text} {params : List Tree}
    (hparams : ∀ p ∈ params, p.MentionsOnly may) (value : Chain Char) :
    P ((Call.mk name params).applyWith expand value) := by
  have hsame : List.Forall₂ (fun t u => t = u ∧ t.MentionsOnly may) params params :=
    List.forall₂_same.2 fun p hp => ⟨rfl, hparams p hp⟩
  rw [Call.applyWith_mk]
  refine h.modify name value ?_
  exact (Lifting.Evaluates.writeAllWith hsame fun t _ u htu => h.evaluates.writeWith htu).1

/-- Sending a value through a modifier has the property if evaluating its parameters has. -/
theorem apply {nesting : Nat} (h : InvariantOn may P (Tree.expander nesting)) {c : Call}
    (hc : ∀ p ∈ c.params, p.MentionsOnly may) (value : Text) : P (c.apply nesting value) := by
  obtain ⟨name, params⟩ := c
  rw [Call.apply_eq]
  exact h.bind (h.applyWith hc _) fun _ _ => h.pure _

end InvariantOn

namespace Invariant

/-- **Evaluation has the property** on every tree. -/
theorem writeWith (h : Invariant P expand) (t : Tree) : P (t.writeWith expand) :=
  InvariantOn.writeWith h fun _ _ => trivial

theorem resolve {nesting : Nat} (h : Invariant P (Tree.expander nesting)) (t : Tree) :
    P (t.resolve nesting) := by
  refine h.bind ?_ fun _ _ => h.pure _
  rw [Tree.write_eq]
  exact h.writeWith t

theorem apply {nesting : Nat} (h : Invariant P (Tree.expander nesting)) (c : Call) (value : Text) :
    P (c.apply nesting value) :=
  InvariantOn.apply h (fun _ _ _ _ => trivial) value

/-- By induction on the nesting, if the property needs no more of the values of keys than to have it
too. -/
theorem write (h : ∀ {expand}, (∀ v, P (expand v)) → Invariant P expand)
    (exhausted : P (Run.exhausted : Run (Chain Char))) (nesting : Nat) (t : Tree) :
    P (t.write nesting) := by
  induction nesting generalizing t with
  | zero => exact (h fun _ => exhausted).writeWith t
  | succ nesting ih => exact (h ih).writeWith t

end Invariant

end

end Run

end TextGrammar
