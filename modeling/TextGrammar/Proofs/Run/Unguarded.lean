import TextGrammar.Proofs.Run.Depth

/-!
# TextGrammar.Proofs.Run.Unguarded — without a limit depths only label events

Where no limit is set an evaluation does not depend on how deep it stands (`Tree.write_enter`): one level
deeper it does the same, and the expansions that it begins are one level deeper too.  The state behind it
is deeper by that level alone, since expansions end as they begin.
-/

namespace TextGrammar

/-- The event, in a run that stands one level deeper. -/
def Event.deeper : Event → Event
  | entered key depth => entered key (depth + 1)
  | e => e

theorem Event.filter_isDraw_deeper (es : List Event) :
    (es.map deeper).filter isDraw = es.filter isDraw := by
  have hdraw : isDraw ∘ deeper = isDraw := by
    funext e
    cases e <;> rfl
  have hsame : ∀ e ∈ es.filter isDraw, e.deeper = e := by
    intro e he
    cases e with
    | entered key depth => cases (List.mem_filter.1 he).2
    | _ => rfl
  rw [List.filter_map, hdraw, List.map_congr_left hsame, List.map_id']

namespace Outcome

variable {α β : Type}

def deeper (o : Outcome α) : Outcome α :=
  ⟨o.value, .ofList (o.events.map Event.deeper), o.grammar.enter⟩

@[simp] theorem value_deeper (o : Outcome α) : o.deeper.value = o.value := rfl

@[simp] theorem events_deeper (o : Outcome α) : o.deeper.events = o.events.map Event.deeper := rfl

@[simp] theorem grammar_deeper (o : Outcome α) : o.deeper.grammar = o.grammar.enter := rfl

theorem deeper_behind (p : Outcome β) (o : Outcome α) :
    p.deeper.behind o.deeper = (p.behind o).deeper := by
  refine ext rfl ?_ rfl
  rw [events_behind, events_deeper, events_deeper, events_deeper, events_behind, List.map_append]

end Outcome

namespace Grammar

theorem admits_of_maxDepth {g : Grammar} (h : g.maxDepth = none) : g.admits = true := by
  rw [admits, h]

theorem leave_enter (g : Grammar) : g.enter.leave = g := rfl

theorem enter_leave {g : Grammar} (h : 0 < g.depth) : g.leave.enter = g := by
  have hdepth : g.depth - 1 + 1 = g.depth := by omega
  rw [leave, enter, hdepth]

theorem enter_pop (g : Grammar) (key : Text) : g.enter.pop key = (g.pop key).enter := by
  have hstack : g.enter.stack key = g.stack key := rfl
  unfold pop
  rw [hstack]
  split <;> rfl

theorem draw_enter (g : Grammar) (bound : Nat) :
    g.enter.draw bound = ((g.draw bound).1, (g.draw bound).2.enter) := by
  by_cases hb : bound = 0
  · subst hb
    rfl
  · rw [draw_eq hb, draw_eq hb]
    rfl

end Grammar

namespace Run

variable {α β : Type}

/-- The run ends as deep as it starts and, without a limit, does the same one level deeper. -/
structure Unguarded (x : Run α) : Prop where
  balanced : ∀ ⦃g o⦄, x.full g = some o → Balanced g o.events o.grammar
  enter : ∀ g : Grammar, g.maxDepth = none → x.full g.enter = (x.full g).map Outcome.deeper

theorem unguarded_exhausted : Unguarded (exhausted : Run α) where
  balanced _ _ h := by cases h
  enter _ _ := rfl

theorem unguarded_bind {x : Run α} {f : α → Run β} (hx : Unguarded x)
    (hf : ∀ a, x.MayYield a → Unguarded (f a)) : Unguarded (x >>= f) where
  balanced := effect_balanced.bind hx.balanced fun a ha => (hf a ha).balanced
  enter := by
    intro g hg
    rw [full_bind, full_bind, hx.enter g hg]
    cases ho : x.full g with
    | none => rfl
    | some o =>
      have hm : o.grammar.maxDepth = none := (hx.balanced ho).maxDepth.trans hg
      have hrest := (hf o.value ⟨g, o, ho, rfl⟩).enter o.grammar hm
      rw [Option.map_some, Option.bind_some, Option.bind_some, Outcome.value_deeper,
        Outcome.grammar_deeper, hrest, Option.map_map, Option.map_map]
      exact congrArg (fun k => Option.map k _) (funext fun p => Outcome.deeper_behind p o)

theorem unguarded_read {expand : Tree → Run (Chain Char)} (he : ∀ v, Unguarded (expand v))
    (key : Text) {f : Chain Char → Run (Chain Char)} (hf : ∀ a, Unguarded (f a)) :
    Unguarded (Run.read key expand f) where
  balanced := effect_balanced.read (fun v => (he v).balanced) key fun a => (hf a).balanced
  enter := by
    intro g hg
    have hlookup : g.enter.lookup key = g.lookup key := rfl
    have hga : g.admits = true := Grammar.admits_of_maxDepth hg
    have hga' : g.enter.admits = true := Grammar.admits_of_maxDepth hg
    -- without a limit neither side is refused, and the value is looked up in the same stacks
    rw [full_read, full_read, hlookup]
    cases g.lookup key with
    | none => exact congrArg some (Outcome.ext rfl rfl rfl)
    | some v =>
      dsimp only
      rw [if_pos hga, if_pos hga', (he v).enter g.enter hg]
      cases ho : (expand v).full g.enter with
      | none => rfl
      | some o =>
        have hbalanced := (he v).balanced ho
        have hm : o.grammar.leave.maxDepth = none := hbalanced.maxDepth.trans hg
        have hdepth : o.grammar.depth = g.depth + 1 := hbalanced.depth
        -- The depth is not zero, so entering and leaving change places.
        have hleave : o.grammar.enter.leave = o.grammar.leave.enter := by
          rw [Grammar.leave_enter, Grammar.enter_leave (by omega)]
        rw [Option.map_some, Option.bind_some, Option.bind_some, Outcome.value_deeper,
          Outcome.grammar_deeper, hleave, (hf o.value).enter _ hm, Option.map_map, Option.map_map]
        refine congrArg (fun k => Option.map k _) (funext fun p => Outcome.ext rfl ?_ rfl)
        simp [Event.deeper, Grammar.enter]

theorem unguarded_modify (name : Text) (a : Chain Char) {x : Run (List (Chain Char))}
    (hx : Unguarded x) : Unguarded (Run.modify name a x) where
  balanced := effect_balanced.modify name a hx.balanced
  enter := by
    intro g hg
    have hmodifiers : g.enter.modifiers = g.modifiers := rfl
    rw [full_modify, full_modify, hmodifiers]
    cases g.modifiers.get? name with
    | none => exact congrArg some (Outcome.ext rfl rfl rfl)
    | some f =>
      dsimp only
      rw [hx.enter g hg, Option.map_map, Option.map_map]
      rfl

theorem unguarded_draw (bound : Nat) : Unguarded (draw bound) where
  balanced := effect_balanced.draw_had bound
  enter := by
    intro g _
    by_cases hb : bound = 0
    · subst hb
      exact congrArg some (Outcome.ext rfl rfl rfl)
    · rw [full_draw hb, full_draw hb, Grammar.draw_enter]
      exact congrArg some (Outcome.ext rfl rfl rfl)

theorem invariant_unguarded {expand : Tree → Run (Chain Char)} (he : ∀ v, Unguarded (expand v)) :
    Invariant Unguarded expand := by
  have hbalanced := effect_balanced.invariant fun v => (he v).balanced
  exact {
    pure := fun a => ⟨hbalanced.pure a, fun g _ => congrArg some (Outcome.ext rfl rfl rfl)⟩
    bind := unguarded_bind
    read := fun _ hf => unguarded_read he _ hf
    modify := unguarded_modify
    push := fun text _ =>
      ⟨hbalanced.push text trivial, fun g _ => congrArg some (Outcome.ext rfl rfl rfl)⟩
    pop := fun _ => ⟨hbalanced.pop trivial, fun g _ =>
      congrArg some (Outcome.ext rfl rfl (Grammar.enter_pop g _))⟩
    draw := unguarded_draw }

end Run

/-- **Without a limit the depth does not matter.** -/
theorem Tree.write_enter (nesting : Nat) (t : Tree) {g : Grammar} (hg : g.maxDepth = none) :
    (t.write nesting).full g.enter = ((t.write nesting).full g).map Outcome.deeper := by
  have hwrite : Run.Unguarded (t.write nesting) :=
    Run.Invariant.write Run.invariant_unguarded Run.unguarded_exhausted nesting t
  exact hwrite.enter g hg

end TextGrammar
