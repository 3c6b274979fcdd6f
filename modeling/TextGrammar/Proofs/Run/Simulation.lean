import TextGrammar.Proofs.Run.Lifting

/-!
# TextGrammar.Proofs.Run.Simulation — two runs side by side

A run simulates another if it comes to an end whenever the other does, with related values, events and
states.  The relation between the states may look at the events that the first run has yet to note: a
guard may be put in place where it is known that no expansion ahead goes too deep.

`Run.Simulates` says what one operation keeps of such a relation.  By induction over trees and over the
nesting granted, a whole evaluation keeps it (`Run.Simulates.write`, `Run.Simulates.yields`).

States that differ in their stacks and modifiers only are related by `Grammar.Related`, key by key.  The
guard and the source take the same course on both sides, so all that is left to say of such a relation
is what it makes of the operations on one stack (`Run.Respects.simulates`).
-/

namespace TextGrammar

theorem eq_none_of_rel_none {α β : Type} {R : α → β → Prop} {y : Option β}
    (h : Option.Rel R none y) : y = none := by
  cases h
  rfl

theorem exists_of_rel_some {α β : Type} {R : α → β → Prop} {a : α} {y : Option β}
    (h : Option.Rel R (some a) y) : ∃ b, y = some b ∧ R a b := by
  cases h with
  | some hab => exact ⟨_, rfl, hab⟩

namespace Run

/-- From states related by `I` and the events ahead, the second run ends whenever the first does:
with values related by `V`, with events related by `E` one by one, and in states related by `I`. -/
def simulation (I : List Event → Grammar → Grammar → Prop) (E : Event → Event → Prop) :
    Lifting where
  Holds V x y := ∀ ⦃g h o⦄ (later : List Event), I (o.events ++ later) g h → x.full g = some o →
    ∃ p, y.full h = some p ∧ V o.value p.value ∧ List.Forall₂ E o.events p.events ∧
      I later o.grammar p.grammar
  pure := by
    intro α β V a b hab g h o later hI hx
    obtain rfl := Option.some.inj hx
    exact ⟨⟨b, ∅, h⟩, rfl, hab, .nil, hI⟩
  bind := by
    intro α β γ δ V W x y f k hxy hfk g h q later hI hq
    obtain ⟨o, o', ho, ho', rfl⟩ := full_bind_eq_some.1 hq
    rw [Outcome.events_behind, List.append_assoc] at hI
    -- the events of the second part are still ahead when the first part ends
    obtain ⟨p, hp, hV, hE, hI⟩ := hxy _ hI ho
    obtain ⟨p', hp', hW, hE', hI⟩ := hfk _ _ hV _ hI ho'
    refine ⟨p'.behind p, full_bind_eq_some.2 ⟨p, p', hp, hp', rfl⟩, hW, ?_, hI⟩
    rw [Outcome.events_behind, Outcome.events_behind]
    exact List.rel_append hE hE'

/-- What is compared of two runs: texts by `X`, and events by `E`.  Joined texts are related if their
parts are, and so are the ends of expansions with related texts. -/
structure Observes (E : Event → Event → Prop) (X : Text → Text → Prop) : Prop where
  text : ∀ t, X t t
  append : ∀ {s s' t t'}, X s s' → X t t' → X (s ++ t) (s' ++ t')
  event : ∀ e, E e e
  expanded : ∀ key {a b : Chain Char}, a.Related X b → E (.expanded key a) (.expanded key b)

theorem observes_eq : Observes Eq Eq where
  text _ := rfl
  append h h' := by rw [h, h']
  event _ := rfl
  expanded key a b h := by rw [Chain.ext h]

/-- What one operation keeps of a relation `I` between states with events ahead: it finds related
trees and modifiers in related states, passes or refuses in both alike, and leaves related states.
Registered modifiers and drawn indices are among those taken notice of.  A draw that is ahead counts
until it is made; other events can be let go before. -/
structure Simulates (I : List Event → Grammar → Grammar → Prop) (E : Event → Event → Prop)
    (T : Tree → Tree → Prop) (X : Text → Text → Prop) (may : Mention → Prop) (heed : Tree.Heed) : Prop
    extends Observes E X where
  layer : ∀ {t u}, T t u → t.Layer T X may heed u
  noted : ∀ {e es g h}, e.isDraw = false → I (e :: es) g h → I es g h
  lookup : ∀ {key es g h}, may (.read key) → I es g h →
    Option.Rel T (g.lookup key) (h.lookup key)
  refuse : ∀ {key es g h}, I (.refused key :: es) g h → g.admits = false → h.admits = false
  enter : ∀ {key es g h}, I (.entered key (g.depth + 1) :: es) g h → g.admits = true →
    h.admits = true ∧ h.depth = g.depth ∧ I es g.enter h.enter
  leave : ∀ {es g h}, I es g h → I es g.leave h.leave
  modifier : ∀ {name es g h}, I es g h → Option.Rel
    (fun f f' => ∀ {s t ps qs}, X s t → List.Forall₂ X ps qs → X (f s ps) (f' t qs))
    (g.modifiers.get? name) (h.modifiers.get? name)
  registered : ∀ {name f es g h}, I es g h → g.modifiers.get? name = some f → heed.calls name
  push : ∀ {key s t es g h}, may (.push key) → X s t → I es g h →
    I es (g.push key (.literal s)) (h.push key (.literal t))
  pop : ∀ {key es g h}, may (.pop key) → I es g h → I es (g.pop key) (h.pop key)
  draw : ∀ {bound es g h}, bound ≠ 0 → I (.drawn bound (g.draw bound).1 :: es) g h →
    (h.draw bound).1 = (g.draw bound).1 ∧ I es (g.draw bound).2 (h.draw bound).2
  drawn : ∀ {bound es g h}, bound ≠ 0 → I es g h → heed.indices bound (g.draw bound).1

namespace Simulates

variable {I : List Event → Grammar → Grammar → Prop} {E : Event → Event → Prop}
  {T : Tree → Tree → Prop} {X : Text → Text → Prop} {may : Mention → Prop}
  {heed : Tree.Heed} {expand expand' : Tree → Run (Chain Char)}

/-! ### One operation -/

theorem read (hs : Simulates I E T X may heed)
    (he : ∀ v w, T v w → (simulation I E).Holds (Chain.Related X) (expand v) (expand' w))
    {key : Text} {f k : Chain Char → Run (Chain Char)} (hkey : may (.read key))
    (hfk : ∀ a b, a.Related X b → (simulation I E).Holds (Chain.Related X) (f a) (k b)) :
    (simulation I E).Holds (Chain.Related X) (Run.read key expand f) (Run.read key expand' k) := by
  intro g h q later hI hq
  have hlookup := hs.lookup hkey hI
  -- the first run takes one of three ways, and the second one the same: the look-ups agree on
  -- whether there is a value, and the guards on whether it is admitted
  obtain ⟨hg, rfl⟩ | ⟨v, hg, hga, rfl⟩ | ⟨v, o, p, hg, hga, ho, hp, rfl⟩ := full_read_cases hq
  · have hh : h.lookup key = none := eq_none_of_rel_none (hg ▸ hlookup)
    exact ⟨_, full_read_undefined hh, hs.text _, .cons (hs.event _) .nil, hs.noted rfl hI⟩
  · obtain ⟨w, hh, -⟩ := exists_of_rel_some (hg ▸ hlookup)
    exact ⟨_, full_read_refused hh (hs.refuse hI hga), hs.text _, .cons (hs.event _) .nil,
      hs.noted rfl hI⟩
  · obtain ⟨w, hh, hvw⟩ := exists_of_rel_some (hg ▸ hlookup)
    -- the events ahead: entering, the expansion, leaving, and what follows, in turn
    simp only [Outcome.events_ofRead, List.cons_append, List.append_assoc] at hI
    obtain ⟨hha, hdepth, hI⟩ := hs.enter hI hga
    obtain ⟨o', ho', ha, hE, hI⟩ := he v w hvw _ hI ho
    obtain ⟨p', hp', hb, hE', hI⟩ := hfk _ _ ha _ (hs.leave (hs.noted rfl hI)) hp
    refine ⟨_, full_read_admitted hh hha ho' hp', hb, ?_, hI⟩
    rw [Outcome.events_ofRead, Outcome.events_ofRead, hdepth]
    exact .cons (hs.event _) (List.rel_append hE (.cons (hs.expanded key ha) hE'))

theorem modify (hs : Simulates I E T X may heed) {name : Text} {a b : Chain Char}
    {x y : Run (List (Chain Char))} (hab : a.Related X b)
    (hxy : heed.calls name → (simulation I E).Holds (List.Forall₂ (Chain.Related X)) x y) :
    (simulation I E).Holds (Chain.Related X) (Run.modify name a x) (Run.modify name b y) := by
  intro g h q later hI hq
  have hmod : Option.Rel _ (g.modifiers.get? name) (h.modifiers.get? name) := hs.modifier hI
  obtain ⟨hg, rfl⟩ | ⟨f, o, hg, ho, rfl⟩ := full_modify_cases hq
  · have hh : h.modifiers.get? name = none := eq_none_of_rel_none (hg ▸ hmod)
    refine ⟨_, full_modify_unregistered hh, ?_, .nil, hI⟩
    rw [Chain.Related, Chain.toList_append, Chain.toList_append]
    exact hs.append hab (hs.text _)
  · obtain ⟨f', hh, hff⟩ := exists_of_rel_some (hg ▸ hmod)
    obtain ⟨p, hp, hV, hE, hI⟩ := hxy (hs.registered hI hg) _ hI ho
    refine ⟨_, full_modify_registered hh hp, hff hab ?_, hE, hI⟩
    rw [List.forall₂_map_left_iff, List.forall₂_map_right_iff]
    exact hV

theorem evaluates (hs : Simulates I E T X may heed)
    (he : ∀ v w, T v w → (simulation I E).Holds (Chain.Related X) (expand v) (expand' w)) :
    (simulation I E).Evaluates T X may heed expand expand' where
  layer := hs.layer
  nil := hs.text []
  append := hs.append
  read := hs.read he
  modify := hs.modify
  push := by
    intro key s t hkey hst g h o later hI hx
    rw [full_push] at hx ⊢
    obtain rfl := Option.some.inj hx
    exact ⟨_, rfl, trivial, .cons (hs.event _) .nil, hs.push hkey hst (hs.noted rfl hI)⟩
  pop := by
    intro key hkey g h o later hI hx
    rw [full_pop] at hx ⊢
    obtain rfl := Option.some.inj hx
    exact ⟨_, rfl, trivial, .cons (hs.event _) .nil, hs.pop hkey (hs.noted rfl hI)⟩
  draw := by
    intro bound g h o later hI hx
    -- a bound of zero draws nothing; else both sources answer with the same index
    by_cases hb : bound = 0
    · subst hb
      rw [full_draw_zero] at hx ⊢
      obtain rfl := Option.some.inj hx
      exact ⟨_, rfl, ⟨rfl, fun hb => absurd rfl hb⟩, .nil, hI⟩
    · rw [full_draw hb] at hx ⊢
      obtain rfl := Option.some.inj hx
      have hindex := hs.drawn hb hI
      obtain ⟨hi, hI⟩ := hs.draw hb hI
      rw [hi]
      exact ⟨_, rfl, ⟨rfl, fun _ => hindex⟩, .cons (hs.event _) .nil, hI⟩

/-! ### Whole evaluations -/

/-- **Evaluation is simulated** with at least as much nesting, by induction on the nesting. -/
theorem write (hs : Simulates I E T X may heed) {m n : Nat} (hmn : m ≤ n) {t u : Tree} (htu : T t u) :
    (simulation I E).Holds (Chain.Related X) (t.write m) (u.write n) := by
  induction m generalizing n t u with
  | zero =>
    rw [Tree.write_eq, Tree.write_eq]
    refine (hs.evaluates fun v w hvw => ?_).writeWith htu
    intro g h o later hI hx
    cases hx
  | succ m ih =>
    obtain ⟨n, rfl⟩ : ∃ k, n = k + 1 := ⟨n - 1, by omega⟩
    rw [Tree.write_eq, Tree.write_eq]
    exact (hs.evaluates fun v w hvw => ih (by omega) hvw).writeWith htu

/-- What a tree yields has a counterpart that the related tree yields from the related state, while
other events are still ahead. -/
theorem yields_ahead (hs : Simulates I E T X may heed) {t u : Tree} (htu : T t u) {g h : Grammar}
    {o : Outcome Text} {later : List Event} (hI : I (o.events ++ later) g h) (ho : t.Yields g o) :
    ∃ p, u.Yields h p ∧ X o.value p.value ∧ List.Forall₂ E o.events p.events ∧
      I later o.grammar p.grammar := by
  obtain ⟨n, q, hq, rfl⟩ := ho.exists_write
  obtain ⟨p, hp, hv, he, hI⟩ := hs.write (Nat.le_refl n) htu later hI hq
  refine ⟨{ p with value := p.value.toList }, ⟨n, ?_⟩, hv, he, hI⟩
  rw [Tree.full_resolve, hp]
  rfl

theorem yields (hs : Simulates I E T X may heed) {t u : Tree} (htu : T t u) {g h : Grammar}
    {o : Outcome Text} (hI : I o.events g h) (ho : t.Yields g o) :
    ∃ p, u.Yields h p ∧ X o.value p.value ∧ List.Forall₂ E o.events p.events ∧
      I [] o.grammar p.grammar :=
  hs.yields_ahead htu (by rwa [List.append_nil]) ho

end Simulates

end Run

/-! ### States that differ in stacks and modifiers -/

/-- Key by key the stacks are related, and so are the modifiers; all else is the same. -/
structure Grammar.Related (R : Text → List Tree → List Tree → Prop)
    (M : KeyMap Modifier → KeyMap Modifier → Prop) (g h : Grammar) : Prop where
  stack : ∀ key, R key (g.stack key) (h.stack key)
  modifiers : M g.modifiers h.modifiers
  source : g.source = h.source
  maxDepth : g.maxDepth = h.maxDepth
  depth : g.depth = h.depth

namespace Grammar.Related

variable {R R' : Text → List Tree → List Tree → Prop}
  {M M' : KeyMap Modifier → KeyMap Modifier → Prop} {g h : Grammar} {key : Text}

theorem imp (hgh : g.Related R M h) (hR : ∀ key a b, R key a b → R' key a b)
    (hM : M g.modifiers h.modifiers → M' g.modifiers h.modifiers) : g.Related R' M' h where
  stack key := hR key _ _ (hgh.stack key)
  modifiers := hM hgh.modifiers
  source := hgh.source
  maxDepth := hgh.maxDepth
  depth := hgh.depth

theorem flip (hgh : g.Related R M h) (hR : ∀ key a b, R key a b → R' key b a)
    (hM : M g.modifiers h.modifiers → M' h.modifiers g.modifiers) : h.Related R' M' g where
  stack key := hR key _ _ (hgh.stack key)
  modifiers := hM hgh.modifiers
  source := hgh.source.symm
  maxDepth := hgh.maxDepth.symm
  depth := hgh.depth.symm

theorem admits (hgh : g.Related R M h) : h.admits = g.admits := by
  unfold Grammar.admits
  rw [hgh.maxDepth, hgh.depth]

theorem enter (hgh : g.Related R M h) : g.enter.Related R M h.enter :=
  ⟨hgh.stack, hgh.modifiers, hgh.source, hgh.maxDepth, congrArg (· + 1) hgh.depth⟩

theorem leave (hgh : g.Related R M h) : g.leave.Related R M h.leave :=
  ⟨hgh.stack, hgh.modifiers, hgh.source, hgh.maxDepth, congrArg (· - 1) hgh.depth⟩

theorem draw (hgh : g.Related R M h) {bound : Nat} (hb : bound ≠ 0) :
    (h.draw bound).1 = (g.draw bound).1 ∧ (g.draw bound).2.Related R M (h.draw bound).2 := by
  rw [draw_eq hb, draw_eq hb, ← hgh.source]
  exact ⟨rfl, hgh.stack, hgh.modifiers, rfl, hgh.maxDepth, hgh.depth⟩

theorem push (hgh : g.Related R M h) {v w : Tree}
    (hR : ∀ a b, R key a b → R key (v :: a) (w :: b)) :
    (g.push key v).Related R M (h.push key w) where
  stack k := by
    rw [stack_push, stack_push]
    split_ifs with hk
    · subst hk
      exact hR _ _ (hgh.stack k)
    · exact hgh.stack k
  modifiers := hgh.modifiers
  source := hgh.source
  maxDepth := hgh.maxDepth
  depth := hgh.depth

/-- Stacks of one length lose their top together, or keep their only entry together. -/
theorem pop (hgh : g.Related R M h)
    (hR : ∀ a b, R key a b → a.length = b.length ∧ R key a.tail b.tail) :
    (g.pop key).Related R M (h.pop key) := by
  have hstack : ∀ k, R k ((g.pop key).stack k) ((h.pop key).stack k) := by
    intro k
    obtain ⟨hlength, htail⟩ := hR _ _ (hgh.stack key)
    rw [stack_pop, stack_pop, hlength]
    split_ifs with hk
    · obtain ⟨rfl, -⟩ := hk
      exact htail
    · exact hgh.stack k
  obtain ⟨s, hs⟩ := pop_eq g key
  obtain ⟨s', hs'⟩ := pop_eq h key
  rw [hs, hs'] at hstack ⊢
  exact ⟨hstack, hgh.modifiers, hgh.source, hgh.maxDepth, hgh.depth⟩

end Grammar.Related

theorem rel_head?_of_forall₂ {α β : Type} {R : α → β → Prop} {as : List α} {bs : List β}
    (h : List.Forall₂ R as bs) : Option.Rel R as.head? bs.head? := by
  cases h with
  | nil => exact .none
  | cons hab _ => exact .some hab

theorem forall₂_tail {α β : Type} {R : α → β → Prop} {as : List α} {bs : List β}
    (h : List.Forall₂ R as bs) : as.length = bs.length ∧ List.Forall₂ R as.tail bs.tail := by
  cases h with
  | nil => exact ⟨rfl, .nil⟩
  | cons hab hrest => exact ⟨congrArg (· + 1) hrest.length_eq, hrest⟩

namespace Run

/-- What there is to say of a relation between states that differ in their stacks and modifiers: what
is read of related stacks and modifiers is related, and the operations on one stack keep `R`.  `S` is
what is known of the source, which the states share. -/
structure Respects (R : Text → List Tree → List Tree → Prop)
    (M : KeyMap Modifier → KeyMap Modifier → Prop) (S : Source → Prop) (E : Event → Event → Prop)
    (T : Tree → Tree → Prop) (X : Text → Text → Prop) (may : Mention → Prop) (heed : Tree.Heed) : Prop
    extends Observes E X where
  layer : ∀ {t u}, T t u → t.Layer T X may heed u
  lookup : ∀ {key a b}, may (.read key) → R key a b → Option.Rel T a.head? b.head?
  modifier : ∀ {m m'}, M m m' → ∀ name, Option.Rel
    (fun f f' => ∀ {s t ps qs}, X s t → List.Forall₂ X ps qs → X (f s ps) (f' t qs))
    (m.get? name) (m'.get? name)
  registered : ∀ {m m' name f}, M m m' → m.get? name = some f → heed.calls name
  push : ∀ {key s t a b}, may (.push key) → X s t → R key a b →
    R key (.literal s :: a) (.literal t :: b)
  pop : ∀ {key a b}, may (.pop key) → R key a b → a.length = b.length ∧ R key a.tail b.tail
  drawn : ∀ {bound s}, S s → heed.indices bound ((s.ask bound).1 % bound)
  asked : ∀ {bound s}, S s → S (s.ask bound).2

/-- **Related states simulate each other** if the operations on one stack keep the relation. -/
theorem Respects.simulates {R : Text → List Tree → List Tree → Prop}
    {M : KeyMap Modifier → KeyMap Modifier → Prop} {S : Source → Prop} {E : Event → Event → Prop}
    {T : Tree → Tree → Prop} {X : Text → Text → Prop} {may : Mention → Prop} {heed : Tree.Heed}
    (hr : Respects R M S E T X may heed) :
    Simulates (fun _ g h => g.Related R M h ∧ S g.source) E T X may heed where
  toObserves := hr.toObserves
  layer := hr.layer
  noted _ hI := hI
  lookup hkey hI := hr.lookup hkey (hI.1.stack _)
  refuse hI hg := hI.1.admits.trans hg
  enter hI hg := ⟨hI.1.admits.trans hg, hI.1.depth.symm, hI.1.enter, hI.2⟩
  leave hI := ⟨hI.1.leave, hI.2⟩
  modifier hI := hr.modifier hI.1.modifiers _
  registered hI hf := hr.registered hI.1.modifiers hf
  push hkey hst hI := ⟨hI.1.push fun _ _ => hr.push hkey hst, hI.2⟩
  -- a pop or a draw writes the state anew, but leaves the other part as it was
  pop := by
    intro key es g h hkey hI
    have hpop := hI.1.pop fun _ _ => hr.pop hkey
    obtain ⟨s, hs⟩ := Grammar.pop_eq g key
    rw [hs] at hpop ⊢
    exact ⟨hpop, hI.2⟩
  draw := by
    intro bound es g h hb hI
    obtain ⟨hindex, hdraw⟩ := hI.1.draw hb
    refine ⟨hindex, hdraw, ?_⟩
    rw [Grammar.draw_eq hb]
    exact hr.asked hI.2
  drawn := by
    intro bound es g h hb hI
    rw [Grammar.draw_eq hb]
    exact hr.drawn hI.2

end Run

end TextGrammar
