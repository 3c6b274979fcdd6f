import TextGrammar.Proofs.Run.Move

/-!
# TextGrammar.Proofs.Run.Mention — an evaluation does to keys what its trees mention

The events of a run say which keys it reads and whose stacks it changes (`Event.mention?`).  Where no
event changes the stack of a key, no move does (`Grammar.Makes.stack_eq`).  An evaluation does nothing
to keys but what is mentioned in its tree or in an entry of a stack, since what it lays on stacks is
literal text and mentions nothing (`Tree.MentionsOnly.yields`).  So the stack of a key stays that occurs
in no push and no pop of them (`Tree.Spares.yields`).
-/

namespace TextGrammar

/-- The mention is neither a push nor a pop of the key. -/
def Mention.Spares (key : Text) (m : Mention) : Prop := m ≠ .push key ∧ m ≠ .pop key

instance (key : Text) (m : Mention) : Decidable (m.Spares key) :=
  inferInstanceAs (Decidable (m ≠ .push key ∧ m ≠ .pop key))

/-! ### Events -/

namespace Event

/-- What an event does to a key, if it does something to one.  The end of an expansion does not. -/
def mention? : Event → Option Mention
  | entered key _ | refused key | undefined key => some (.read key)
  | pushed key => some (.push key)
  | popped key => some (.pop key)
  | drawn _ _ | expanded _ _ => none

/-- The event is neither a push nor a pop of the key. -/
def Spares (key : Text) (e : Event) : Prop := ∀ m ∈ e.mention?, m.Spares key

instance (key : Text) (e : Event) : Decidable (e.Spares key) :=
  inferInstanceAs (Decidable (∀ m ∈ e.mention?, m.Spares key))

end Event

/-- A move whose event spares the key leaves its stack alone. -/
theorem Move.stack_apply_of_spares {m : Move} {g : Grammar} {key : Text}
    (h : ∀ e ∈ m.event? g, e.Spares key) : (m.apply g).stack key = g.stack key := by
  -- pushes and pops are of other keys, and no other move touches a stack
  cases m with
  | push k value =>
    have hk : key ≠ k := by
      rintro rfl
      exact (h _ rfl _ rfl).1 rfl
    show (g.push k value).stack key = _
    rw [g.stack_push, if_neg hk]
  | pop k =>
    have hk : key ≠ k := by
      rintro rfl
      exact (h _ rfl _ rfl).2 rfl
    show (g.pop k).stack key = _
    rw [g.stack_pop, if_neg fun hand => hk hand.1]
  | draw bound => exact g.stack_draw bound key
  | undefined | refuse | enter | leave | configure => rfl

/-- **Moves whose events spare a key leave its stack alone**, by induction on the moves. -/
theorem Grammar.Makes.stack_eq {g h : Grammar} {ms : List Move} {es : List Event}
    (hms : g.Makes ms es h) {key : Text} (hes : ∀ e ∈ es, e.Spares key) :
    h.stack key = g.stack key := by
  induction hms with
  | nil => rfl
  | @cons g h m ms es fits rest ih =>
    obtain ⟨hm, hrest⟩ := List.forall_mem_append.1 hes
    rw [ih hrest]
    exact Move.stack_apply_of_spares fun e he => hm e (Option.mem_toList.2 he)

theorem Run.Moves.stack_eq {laid : Text → Tree → Prop} {g h : Grammar} {es : List Event}
    (hes : Run.Moves laid g es h) {key : Text} (hspare : ∀ e ∈ es, e.Spares key) :
    h.stack key = g.stack key := by
  obtain ⟨ms, hms, -⟩ := hes
  exact hms.stack_eq hspare

/-! ### Runs that keep to what is allowed -/

instance (may : Mention → Prop) [DecidablePred may] (t : Tree) : Decidable (t.MentionsOnly may) :=
  inferInstanceAs (Decidable (∀ m ∈ t.mentions, may m))

/-- Every entry of a stack, the covered ones too, does to keys only what is allowed. -/
def Grammar.MentionsOnly (may : Mention → Prop) (g : Grammar) : Prop :=
  ∀ key, ∀ t ∈ g.stack key, t.MentionsOnly may

namespace Grammar.MentionsOnly

variable {may : Mention → Prop} {g : Grammar}

/-- What stands on the stacks behind a move was there before, or the move has laid it. -/
theorem apply (hg : g.MentionsOnly may) {m : Move}
    (hm : ∀ key value, m = .push key value → value.MentionsOnly may) :
    (m.apply g).MentionsOnly may := by
  intro key t ht
  have hafter : t ∈ (g.after [m]).stack key := ht
  rcases mem_stack_after hafter with ht | ht
  · exact hg key t ht
  · exact hm key t (List.mem_singleton.1 ht).symm

theorem push (hg : g.MentionsOnly may) (key : Text) {value : Tree} (hvalue : value.MentionsOnly may) :
    (g.push key value).MentionsOnly may := by
  refine hg.apply (m := .push key value) ?_
  rintro _ _ ⟨⟩
  exact hvalue

theorem pop (hg : g.MentionsOnly may) (key : Text) : (g.pop key).MentionsOnly may :=
  hg.apply (m := .pop key) (by simp)

theorem draw (hg : g.MentionsOnly may) (bound : Nat) : (g.draw bound).2.MentionsOnly may :=
  hg.apply (m := .draw bound) (by simp)

theorem lookup (hg : g.MentionsOnly may) {key : Text} {v : Tree} (hv : g.lookup key = some v) :
    v.MentionsOnly may :=
  hg key v (List.mem_of_head? hv)

end Grammar.MentionsOnly

namespace Run

variable {may : Mention → Prop} {expand : Tree → Run (Chain Char)}

/-- From a state whose entries do only what is allowed, the run does to keys only what is allowed, and it
leaves such a state. -/
def KeepsTo (may : Mention → Prop) {α : Type} (x : Run α) : Prop :=
  ∀ ⦃g o⦄, x.full g = some o → g.MentionsOnly may →
    (∀ e ∈ o.events, ∀ m ∈ e.mention?, may m) ∧ o.grammar.MentionsOnly may

namespace KeepsTo

theorem pure {α : Type} (a : α) : (pure a : Run α).KeepsTo may := by
  intro g o ho hg
  obtain rfl := Option.some.inj ho
  exact ⟨by simp, hg⟩

theorem bind {α β : Type} {x : Run α} {f : α → Run β} (hx : x.KeepsTo may)
    (hf : ∀ a, x.MayYield a → (f a).KeepsTo may) : (x >>= f).KeepsTo may := by
  intro g q hq hg
  obtain ⟨o, p, ho, hp, rfl⟩ := full_bind_eq_some.1 hq
  obtain ⟨hevents, hgo⟩ := hx ho hg
  obtain ⟨hevents', hgp⟩ := hf o.value ⟨g, o, ho, rfl⟩ hp hgo
  rw [Outcome.events_behind]
  exact ⟨List.forall_mem_append.2 ⟨hevents, hevents'⟩, hgp⟩

/-- What is expanded is an entry of a stack, so it does only what is allowed too. -/
theorem read (he : ∀ v : Tree, v.MentionsOnly may → (expand v).KeepsTo may) {key : Text}
    (hkey : may (.read key)) {f : Chain Char → Run (Chain Char)} (hf : ∀ a, (f a).KeepsTo may) :
    (Run.read key expand f).KeepsTo may := by
  intro g q hq hg
  obtain ⟨-, rfl⟩ | ⟨v, -, -, rfl⟩ | ⟨v, o, p, hv, -, ho, hp, rfl⟩ := full_read_cases hq
  · exact ⟨by simpa [Event.mention?] using hkey, hg⟩
  · exact ⟨by simpa [Event.mention?] using hkey, hg⟩
  · obtain ⟨hevents, hgo⟩ := he v (hg.lookup hv) ho hg
    obtain ⟨hevents', hgp⟩ := hf o.value hp hgo
    refine ⟨?_, hgp⟩
    rw [Outcome.events_ofRead]
    refine List.forall_mem_cons.2 ⟨?_, List.forall_mem_append.2 ⟨hevents, ?_⟩⟩
    · rintro m ⟨⟩
      exact hkey
    · exact List.forall_mem_cons.2 ⟨by rintro m ⟨⟩, hevents'⟩

theorem modify (name : Text) (a : Chain Char) {x : Run (List (Chain Char))}
    (hx : x.KeepsTo may) : (Run.modify name a x).KeepsTo may := by
  intro g q hq hg
  obtain ⟨-, rfl⟩ | ⟨f, o, -, ho, rfl⟩ := full_modify_cases hq
  · exact ⟨by simp, hg⟩
  · exact hx ho hg

theorem push {key : Text} (hkey : may (.push key)) (text : Text) :
    (Run.push key (.literal text)).KeepsTo may := by
  intro g o ho hg
  rw [full_push] at ho
  obtain rfl := Option.some.inj ho
  exact ⟨by simpa [Event.mention?] using hkey, hg.push key (.literal text)⟩

theorem pop {key : Text} (hkey : may (.pop key)) : (Run.pop key).KeepsTo may := by
  intro g o ho hg
  rw [full_pop] at ho
  obtain rfl := Option.some.inj ho
  exact ⟨by simpa [Event.mention?] using hkey, hg.pop key⟩

theorem draw (bound : Nat) : (Run.draw bound).KeepsTo may := by
  intro g o ho hg
  by_cases hb : bound = 0
  · subst hb
    rw [full_draw_zero] at ho
    obtain rfl := Option.some.inj ho
    exact ⟨by simp, hg⟩
  · rw [full_draw hb] at ho
    obtain rfl := Option.some.inj ho
    exact ⟨by simp [Event.mention?], hg.draw bound⟩

end KeepsTo

theorem invariantOn_keepsTo
    (he : ∀ v : Tree, v.MentionsOnly may → (expand v).KeepsTo may) :
    InvariantOn may (KeepsTo may) expand where
  pure := .pure
  bind := .bind
  read hkey hf := .read he hkey hf
  modify := .modify
  push text hkey := .push hkey text
  pop hkey := .pop hkey
  draw := .draw

end Run

namespace Tree

variable {may : Mention → Prop}

/-- By induction on the nesting: values of keys are entries of stacks. -/
theorem MentionsOnly.expander (nesting : Nat) {t : Tree} (ht : t.MentionsOnly may) :
    (expander nesting t).KeepsTo may := by
  induction nesting generalizing t with
  | zero =>
    intro g o ho
    cases ho
  | succ nesting ih =>
    rw [Tree.expander, write_eq]
    exact (Run.invariantOn_keepsTo fun v hv => ih hv).writeWith ht

/-- **An evaluation does to keys only what is mentioned** in its tree and in the entries of stacks. -/
theorem MentionsOnly.yields {t : Tree} (ht : t.MentionsOnly may) {g : Grammar}
    (hg : g.MentionsOnly may) {o : Outcome Text} (ho : t.Yields g o) :
    ∀ e ∈ o.events, ∀ m ∈ e.mention?, may m := by
  obtain ⟨nesting, p, hp, rfl⟩ := ho.exists_write
  exact (ht.expander (nesting + 1) hp hg).1

end Tree

/-- A call of a modifier does to keys only what is mentioned in its parameters and in the entries of
stacks. -/
theorem Call.keepsTo_apply {may : Mention → Prop} {c : Call}
    (hc : ∀ p ∈ c.params, p.MentionsOnly may) (nesting : Nat) (value : Text) :
    (c.apply nesting value).KeepsTo may :=
  (Run.invariantOn_keepsTo fun _ hv => hv.expander nesting).apply hc value

/-! ### Stacks that stay -/

/-- No push and no pop of the key occurs in the tree. -/
def Tree.Spares (key : Text) (t : Tree) : Prop := t.MentionsOnly (Mention.Spares key)

instance (key : Text) (t : Tree) : Decidable (t.Spares key) :=
  inferInstanceAs (Decidable (t.MentionsOnly (Mention.Spares key)))

/-- No push and no pop of the key occurs in an entry of a stack, the covered ones too. -/
def Grammar.Spares (key : Text) (g : Grammar) : Prop := g.MentionsOnly (Mention.Spares key)

/-- What an evaluation lays on stacks is literal text, so what holds of all entries of stacks goes on to
hold, whatever is evaluated. -/
theorem Grammar.MentionsOnly.yields {may : Mention → Prop} {g : Grammar} (hg : g.MentionsOnly may)
    {t : Tree} {o : Outcome Text} (ho : t.Yields g o) : o.grammar.MentionsOnly may := by
  have hmoves : Run.Moves (fun _ t => t.MentionsOnly may) g o.events o.grammar :=
    (Run.effect_moves fun _ text => Tree.MentionsOnly.literal text).yields ho
  intro key u hu
  rcases hmoves.mem_stack hu with hu | hu
  · exact hg key u hu
  · exact hu

/-- **The stack of a key stays** that is neither pushed nor popped in the tree or an entry of a stack. -/
theorem Tree.Spares.yields {key : Text} {t : Tree} (ht : t.Spares key) {g : Grammar}
    (hg : g.Spares key) {o : Outcome Text} (ho : t.Yields g o) :
    o.grammar.stack key = g.stack key := by
  have hmoves : Run.Moves (fun _ _ => True) g o.events o.grammar :=
    (Run.effect_moves fun _ _ => trivial).yields ho
  exact hmoves.stack_eq (MentionsOnly.yields ht hg ho)

end TextGrammar
