import Mathlib.Data.List.Forall2
import TextGrammar.Proofs.Run.Invariant
import TextGrammar.Proofs.Run.Simulation

/-!
# TextGrammar.Proofs.Run.Nesting — what does not decide the course of a run

More nesting than a run needs changes nothing (`Tree.resolve_mono`), so a tree yields at most one
outcome from a state (`Tree.Yields.unique`).  Nor does it change anything which events are noted: a run
is its full run with the other events left out (`Tree.resolve_noted`).
-/

namespace TextGrammar

/-! ### Nesting -/

theorem optionRel_refl {α : Type} {R : α → α → Prop} (h : ∀ a, R a a) (x : Option α) :
    Option.Rel R x x := by
  cases x with
  | none => exact .none
  | some a => exact .some (h a)

theorem modifier_refl (f : Option Modifier) :
    Option.Rel (fun f f' : Modifier =>
      ∀ {s t ps qs}, s = t → List.Forall₂ Eq ps qs → f s ps = f' t qs) f f := by
  refine optionRel_refl (fun f => ?_) f
  intro s t ps qs hst hpq
  rw [List.forall₂_eq_eq_eq] at hpq
  rw [hst, hpq]

/-- A run simulates itself. -/
theorem Run.simulates_same : Run.Simulates (fun _ g h => g = h) Eq Eq Eq (fun _ => True) .all where
  toObserves := Run.observes_eq
  layer := .of_eq
  -- the states are equal, so there is nothing to say of the events ahead
  noted _ h := h
  lookup := by
    rintro key es g h - rfl
    exact optionRel_refl (fun _ => rfl) _
  refuse := by
    rintro key es g h rfl hg
    exact hg
  enter := by
    rintro key es g h rfl hg
    exact ⟨hg, rfl, rfl⟩
  leave h := by rw [h]
  modifier := by
    rintro name es g h rfl
    exact modifier_refl _
  registered _ _ := trivial
  push := by
    rintro key s t es g h - rfl rfl
    rfl
  pop := by
    rintro key es g h - rfl
    rfl
  draw := by
    rintro bound es g h - rfl
    exact ⟨rfl, rfl⟩
  drawn _ _ := trivial

namespace Tree

theorem write_mono {m n : Nat} (hmn : m ≤ n) {t : Tree} {g : Grammar} {o : Outcome (Chain Char)}
    (h : (t.write m).full g = some o) : (t.write n).full g = some o := by
  obtain ⟨p, hp, hv, he, hg⟩ := Run.simulates_same.write hmn (rfl : t = t) [] rfl h
  rw [List.forall₂_eq_eq_eq] at he
  rw [hp, Outcome.ext (Chain.ext hv) he hg]

/-- **More nesting changes nothing.** -/
theorem resolve_mono {m n : Nat} (hmn : m ≤ n) {t : Tree} {g : Grammar} {o : Outcome Text}
    (h : (t.resolve m).full g = some o) : (t.resolve n).full g = some o := by
  rw [full_resolve] at h ⊢
  obtain ⟨p, hp, rfl⟩ := Option.map_eq_some_iff.1 h
  rw [write_mono hmn hp]
  rfl

/-- **A tree yields at most one outcome** from a state. -/
theorem Yields.unique {t : Tree} {g : Grammar} {o p : Outcome Text} (ho : t.Yields g o)
    (hp : t.Yields g p) : o = p := by
  obtain ⟨m, hm⟩ := ho
  obtain ⟨n, hn⟩ := hp
  have hm' := resolve_mono (Nat.le_max_left m n) hm
  have hn' := resolve_mono (Nat.le_max_right m n) hn
  exact Option.some.inj (hm'.symm.trans hn')

/-- Two evaluations that follow each other come to an end together, and what holds of the end that is
found holds of the only one there is. -/
theorem yields_together {t u : Tree} {g h : Grammar} {P : Outcome Text → Outcome Text → Prop}
    (forth : ∀ o, t.Yields g o → ∃ p, u.Yields h p ∧ P o p)
    (back : ∀ p, u.Yields h p → ∃ o, t.Yields g o) :
    ((∃ o, t.Yields g o) ↔ ∃ p, u.Yields h p) ∧
      ∀ o p, t.Yields g o → u.Yields h p → P o p := by
  refine ⟨⟨?_, ?_⟩, ?_⟩
  · rintro ⟨o, ho⟩
    obtain ⟨p, hp, -⟩ := forth o ho
    exact ⟨p, hp⟩
  · rintro ⟨p, hp⟩
    exact back p hp
  · intro o p ho hp
    obtain ⟨p', hp', h⟩ := forth o ho
    rwa [hp.unique hp']

end Tree

/-! ### Noted events -/

/-- The end of a run with only some of its events. -/
def Outcome.noting {α : Type} (noted : Event → Bool) (o : Outcome α) : Outcome α :=
  { o with trace := .ofList (o.events.filter noted) }

theorem Outcome.events_noting {α : Type} (noted : Event → Bool) (o : Outcome α) :
    (o.noting noted).events = o.events.filter noted := rfl

namespace Run

variable {α β : Type}

/-- Whatever events are noted, the run is its full run with the others left out. -/
def Noted (x : Run α) : Prop := ∀ noted g, x noted g = (x.full g).map (Outcome.noting noted)

theorem noted_pure (a : α) : Noted (pure a : Run α) := fun _ _ =>
  congrArg some (Outcome.ext rfl rfl rfl)

theorem noted_exhausted : Noted (exhausted : Run α) := fun _ _ => rfl

theorem noted_state : Noted state := fun _ _ => congrArg some (Outcome.ext rfl rfl rfl)

theorem noted_change (f : Grammar → Grammar) (es : List Event) : Noted (change f es) := by
  intro noted g
  rw [full_change]
  rfl

theorem noted_bind {x : Run α} {f : α → Run β} (hx : Noted x)
    (hf : ∀ a, x.MayYield a → Noted (f a)) : Noted (x >>= f) := by
  intro noted g
  rw [full_bind]
  show (x noted g).bind _ = _
  rw [hx]
  cases ho : x.full g with
  | none => rfl
  | some o =>
    show ((f o.value) noted o.grammar).map _ = Option.map _ (Option.map _ _)
    rw [hf o.value ⟨g, o, ho, rfl⟩, Option.map_map, Option.map_map]
    refine congrArg (fun k => Option.map k _) (funext fun p => Outcome.ext rfl ?_ rfl)
    show ((p.noting noted).behind (o.noting noted)).events = ((p.behind o).noting noted).events
    rw [Outcome.events_behind, Outcome.events_noting, Outcome.events_noting,
      Outcome.events_noting, Outcome.events_behind, List.filter_append]

theorem noted_read {expand : Tree → Run (Chain Char)} (he : ∀ v, Noted (expand v)) (key : Text)
    {f : Chain Char → Run (Chain Char)} (hf : ∀ a, Noted (f a)) :
    Noted (Run.read key expand f) := by
  refine noted_bind noted_state fun g _ => ?_
  cases g.lookup key with
  | none => exact noted_bind (noted_change _ _) fun _ _ => noted_pure _
  | some v =>
    refine noted_bind noted_state fun g _ => ?_
    show Noted (if g.admits = true then _ else _ : Run _)
    split_ifs
    · refine noted_bind (noted_bind noted_state fun _ _ => noted_change _ _) fun _ _ => ?_
      refine noted_bind (he v) fun a _ => ?_
      exact noted_bind (noted_change _ _) fun _ _ => hf a
    · exact noted_bind (noted_change _ _) fun _ _ => noted_pure _

theorem noted_modify (name : Text) (a : Chain Char) {x : Run (List (Chain Char))}
    (hx : Noted x) : Noted (Run.modify name a x) := by
  refine noted_bind noted_state fun g _ => ?_
  cases g.modifiers.get? name with
  | none => exact noted_pure _
  | some f => exact noted_bind hx fun _ _ => noted_pure _

theorem noted_draw (bound : Nat) : Noted (draw bound) := by
  unfold draw
  split_ifs
  · exact noted_pure _
  · refine noted_bind noted_state fun g _ => ?_
    exact noted_bind (noted_change _ _) fun _ _ => noted_pure _

theorem invariant_noted {expand : Tree → Run (Chain Char)} (he : ∀ v, Noted (expand v)) :
    Invariant Noted expand where
  pure := noted_pure
  bind := noted_bind
  read _ hf := noted_read he _ hf
  modify := noted_modify
  push _ _ := noted_change _ _
  pop _ := noted_change _ _
  draw := noted_draw

end Run

namespace Tree

theorem write_noted (nesting : Nat) (t : Tree) : (t.write nesting).Noted :=
  Run.Invariant.write Run.invariant_noted Run.noted_exhausted nesting t

/-- **Noting fewer events changes nothing else.** -/
theorem resolve_noted (nesting : Nat) (t : Tree) (noted : Event → Bool) (g : Grammar) :
    (t.resolve nesting) noted g = ((t.resolve nesting).full g).map (Outcome.noting noted) :=
  Run.noted_bind (write_noted nesting t) (fun _ _ => Run.noted_pure _) noted g

end Tree

end TextGrammar
