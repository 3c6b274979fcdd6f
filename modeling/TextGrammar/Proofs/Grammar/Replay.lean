import TextGrammar.Proofs.Random.Source
import TextGrammar.Proofs.Run.Result

/-!
# TextGrammar.Proofs.Grammar.Replay — a run is determined by what it draws

A source decides the course of a run by the indices that it gives and by nothing else.  So any other
source that repeats the indices of a run replays it (`Grammar.replay_of_repeats`): text, draws and
stacks are the same, for one tree as for texts that are flattened one after the other.

The draws that are still ahead say what the second source has to answer.  From one operation to the next
it goes on to repeat them (`Run.simulates_replayed`), and it is asked for the bounds that are noted and
for no others (`Run.effect_asked`).
-/

namespace TextGrammar

/-! ### Draws among events -/

namespace Event

theorem bound?_eq_none {e : Event} (h : e.isDraw = false) : e.bound? = none := by
  cases e with
  | drawn => cases h
  | _ => rfl

theorem index?_eq_none {e : Event} (h : e.isDraw = false) : e.index? = none := by
  cases e with
  | drawn => cases h
  | _ => rfl

/-- Whoever looks at draws only can leave the other events out. -/
theorem filterMap_filter_isDraw {β : Type} {f : Event → Option β}
    (hf : ∀ e : Event, e.isDraw = false → f e = none) (es : List Event) :
    (es.filter isDraw).filterMap f = es.filterMap f := by
  rw [List.filterMap_filter]
  refine List.filterMap_congr fun e _ => ?_
  split_ifs with he
  · rfl
  · exact (hf e (by simpa using he)).symm

end Event

theorem Outcome.bounds_draws {α : Type} (o : Outcome α) :
    o.draws.filterMap Event.bound? = o.bounds :=
  Event.filterMap_filter_isDraw (fun _ => Event.bound?_eq_none) o.events

theorem Outcome.indices_draws {α : Type} (o : Outcome α) :
    o.draws.filterMap Event.index? = o.indices :=
  Event.filterMap_filter_isDraw (fun _ => Event.index?_eq_none) o.events

/-! ### What the source is asked -/

/-- **The source of a run is asked for the bounds that are noted**, in order, and for no others. -/
theorem Run.effect_asked : Run.Effect fun g es h =>
    h.source = g.source.after (es.filterMap Event.bound?) where
  nil _ := rfl
  append := by
    intro g g₁ g₂ es fs h h'
    rw [h', h, List.filterMap_append, Source.after_append]
  undefined _ _ := rfl
  refuse _ _ := rfl
  -- the events that begin and end an expansion ask nothing of the source
  expand := by
    intro g h es key text _ hes
    rw [List.cons_append, List.filterMap_cons_none rfl, List.filterMap_append]
    exact hes.trans (congrArg _ (List.append_nil _).symm)
  push _ _ _ := rfl
  pop g key := by
    obtain ⟨s, hs⟩ := g.pop_eq key
    rw [hs]
    rfl
  draw g bound hb := by
    rw [Grammar.draw_eq hb]
    rfl

/-! ### Another source -/

def Grammar.withSource (g : Grammar) (s : Source) : Grammar := { g with source := s }

def Outcome.withSource {α : Type} (o : Outcome α) (s : Source) : Outcome α :=
  { o with grammar := o.grammar.withSource s }

theorem Grammar.withSource_pop (g : Grammar) (s : Source) (key : Text) :
    (g.withSource s).pop key = (g.pop key).withSource s := by
  have hstack : (g.withSource s).stack key = g.stack key := rfl
  unfold Grammar.pop
  rw [hstack]
  split <;> rfl

/-- The states differ in their sources only, and the second source repeats the draws ahead. -/
def Run.Replayed (es : List Event) (g h : Grammar) : Prop :=
  ∃ s : Source, h = g.withSource s ∧
    s.Repeats (es.filterMap Event.bound?) (es.filterMap Event.index?)

theorem Run.simulates_replayed :
    Run.Simulates Run.Replayed Eq Eq Eq (fun _ => True) .all where
  toObserves := Run.observes_eq
  layer := .of_eq
  noted := by
    rintro e es g h he ⟨s, rfl, hs⟩
    rw [List.filterMap_cons_none (Event.bound?_eq_none he),
      List.filterMap_cons_none (Event.index?_eq_none he)] at hs
    exact ⟨s, rfl, hs⟩
  lookup := by
    rintro key es g h - ⟨s, rfl, -⟩
    exact optionRel_refl (fun _ => rfl) _
  refuse := by
    rintro key es g h ⟨s, rfl, -⟩ hg
    exact hg
  enter := by
    rintro key es g h ⟨s, rfl, hs⟩ hg
    exact ⟨hg, rfl, s, rfl, hs⟩
  leave := by
    rintro es g h ⟨s, rfl, hs⟩
    exact ⟨s, rfl, hs⟩
  modifier := by
    rintro name es g h ⟨s, rfl, -⟩
    exact modifier_refl _
  registered _ _ := trivial
  push := by
    rintro key s t es g h - rfl ⟨s, rfl, hs⟩
    exact ⟨s, rfl, hs⟩
  pop := by
    rintro key es g h - ⟨s, rfl, hs⟩
    exact ⟨s, g.withSource_pop s key, hs⟩
  draw := by
    rintro bound es g h hb ⟨s, rfl, hs⟩
    obtain ⟨hindex, hrest⟩ := Source.repeats_cons.1 hs
    -- the first index lies below its bound already
    rw [Nat.mod_eq_of_lt (g.draw_lt hb)] at hindex
    rw [Grammar.draw_eq hb (g.withSource s)]
    exact ⟨hindex, _, by rw [Grammar.draw_eq hb]; rfl, hrest⟩
  drawn _ _ := trivial

/-- **One evaluation is replayed** by a source that repeats its draws.  The source behind it repeats the
draws that were ahead. -/
theorem Tree.Yields.replay {t : Tree} {g : Grammar} {o : Outcome Text} (ho : t.Yields g o)
    (later : List Event) {s : Source}
    (hs : s.Repeats (o.bounds ++ later.filterMap Event.bound?)
      (o.indices ++ later.filterMap Event.index?)) :
    t.Yields (g.withSource s) (o.withSource (s.after o.bounds)) ∧
      (s.after o.bounds).Repeats (later.filterMap Event.bound?) (later.filterMap Event.index?) := by
  have hstart : Run.Replayed (o.events ++ later) g (g.withSource s) := by
    refine ⟨s, rfl, ?_⟩
    rwa [List.filterMap_append, List.filterMap_append]
  obtain ⟨p, hp, hv, he, s', hg, hlater⟩ := Run.simulates_replayed.yields_ahead rfl hstart ho
  rw [List.forall₂_eq_eq_eq] at he
  have hsource : s' = s.after o.bounds := by
    have hasked := Run.effect_asked.yields hp
    rw [hg, ← he] at hasked
    exact hasked
  subst hsource
  obtain rfl : o.withSource (s.after o.bounds) = p := Outcome.ext hv he hg.symm
  exact ⟨hp, hlater⟩

namespace Grammar

/-- By induction on the texts: behind each of them the source repeats the draws of the others. -/
theorem FlattensAll.replay {g h : Grammar} {sources texts : List Text} {draws : List Event}
    (hg : g.FlattensAll sources texts draws h) {s : Source}
    (hs : s.Repeats (draws.filterMap Event.bound?) (draws.filterMap Event.index?)) :
    (g.withSource s).FlattensAll sources texts draws
      (h.withSource (s.after (draws.filterMap Event.bound?))) := by
  induction hg generalizing s with
  | nil => exact .nil
  | cons first _ ih =>
    obtain ⟨o, ho, rfl, rfl, rfl⟩ := flattens_iff.1 first
    rw [List.filterMap_append, List.filterMap_append, o.bounds_draws, o.indices_draws] at hs
    obtain ⟨hp, hrest⟩ := ho.replay _ hs
    rw [List.filterMap_append, Source.after_append, o.bounds_draws]
    exact .cons (flattens_iff.2 ⟨_, hp, rfl, rfl, rfl⟩) (ih hrest)

/-- **A run can be replayed from its draws.**  Whatever source a tree is evaluated with, another one whose
answers are congruent to the indices drawn gives the same text after the same draws and leaves the same
state, but for the source.  The table of these indices is such a source.  The same holds for texts
flattened one after the other. -/
theorem replay_of_repeats (g : Grammar) :
    (∀ (t : Tree) (o : Outcome Text), t.Yields g o →
      (∀ s : Source, s.Repeats o.bounds o.indices →
        t.Yields (g.withSource s) (o.withSource (s.after o.bounds))) ∧
      t.Yields (g.withSource (.table o.indices))
        (o.withSource ((Source.table o.indices).after o.bounds))) ∧
    ∀ sources texts draws h, g.FlattensAll sources texts draws h →
      let bounds := draws.filterMap Event.bound?
      let indices := draws.filterMap Event.index?
      (∀ s : Source, s.Repeats bounds indices →
        (g.withSource s).FlattensAll sources texts draws (h.withSource (s.after bounds))) ∧
      (g.withSource (.table indices)).FlattensAll sources texts draws
        (h.withSource ((Source.table indices).after bounds)) := by
  constructor
  · intro t o ho
    have hreplay : ∀ s : Source, s.Repeats o.bounds o.indices →
        t.Yields (g.withSource s) (o.withSource (s.after o.bounds)) := by
      intro s hs
      -- the lemma leaves room for draws of a run that follows; here none does
      rw [← List.append_nil o.bounds, ← List.append_nil o.indices] at hs
      exact (ho.replay [] hs).1
    exact ⟨hreplay, hreplay _ (Source.table_repeats _ _)⟩
  · intro sources texts draws h hg bounds indices
    exact ⟨fun s hs => hg.replay hs, hg.replay (Source.table_repeats _ _)⟩

/-- A tree that draws what it lays on a stack and reads it there. -/
def drawingTree : Tree :=
  .concat [.push ['x'] (.select [.literal ['a'], .literal ['b'], .literal ['c']]),
    .symbol ['x'] [.mk ['f'] [.symbol ['x'] []]]]

/-- A state in which a call adds its parameters to a value. -/
def addingState (source : Source) : Grammar :=
  (ofSource source).register ['f'] fun s ps => s ++ ps.flatten

/-- A seeded run, replayed by an answer beyond the bound and by the table of its index.  Then two texts, of
which the second reads what the first has left and draws in a parameter; the answers wrap around. -/
theorem replay_of_repeats_seeded :
    let g := addingState (.ofSeed 25)
    let s : Source := .table [5]
    let g' := addingState (.cycle [3, 6])
    let sources : List Text := ["[x:a,b]#x#".toList, "[y:#x#,c,d]#y.f([z:1\\,2]#z#)#".toList]
    (∃ o, drawingTree.Yields g o ∧ o.value = ['c', 'c'] ∧ o.bounds = [3] ∧ o.indices = [2] ∧
      s.Repeats o.bounds o.indices ∧
      drawingTree.Yields (g.withSource s) (o.withSource (s.after o.bounds)) ∧
      drawingTree.Yields (g.withSource (.table [2]))
        (o.withSource ((Source.table [2]).after o.bounds))) ∧
    ∃ texts draws h, g'.FlattensAll sources texts draws h ∧ texts = [['b'], ['b', '2']] ∧
      draws.filterMap Event.index? = [1, 0, 1] ∧
      (g'.withSource (.table [1, 0, 1])).FlattensAll sources texts draws
        (h.withSource ((Source.table [1, 0, 1]).after (draws.filterMap Event.bound?))) := by
  intro g s g' sources
  constructor
  · obtain ⟨o, ho, hov⟩ : ∃ o, (drawingTree.resolve 1).full g = some o ∧
        (o.value, o.bounds, o.indices) = (['c', 'c'], [3], [2]) :=
      Option.map_eq_some_iff.1 (by decide +kernel)
    obtain ⟨hvalue, hdrawn⟩ := Prod.mk.inj hov
    obtain ⟨hbounds, hindices⟩ := Prod.mk.inj hdrawn
    have hy : drawingTree.Yields g o := ⟨1, ho⟩
    have hs : s.Repeats o.bounds o.indices := by
      rw [hbounds, hindices]
      exact Source.repeats_cons.2 ⟨by decide, Source.repeats_nil _⟩
    obtain ⟨hother, htable⟩ := (replay_of_repeats g).1 _ o hy
    rw [hindices] at htable
    exact ⟨o, hy, hvalue, hbounds, hindices, hs, hother s hs, htable⟩
  · obtain ⟨o, ho, hov⟩ : ∃ o, (Run.flatten 1 "[x:a,b]#x#".toList).full g' = some o ∧
        (o.value, o.draws.filterMap Event.index?,
          ((Run.flatten 1 "[y:#x#,c,d]#y.f([z:1\\,2]#z#)#".toList).full o.grammar).map
            fun p => (p.value, p.draws.filterMap Event.index?)) =
          (['b'], [1], some (['b', '2'], [0, 1])) :=
      Option.map_eq_some_iff.1 (by decide +kernel)
    obtain ⟨hvalue, hrest⟩ := Prod.mk.inj hov
    obtain ⟨hindices, hrest⟩ := Prod.mk.inj hrest
    obtain ⟨p, hp, hpv⟩ := Option.map_eq_some_iff.1 hrest
    obtain ⟨hvalue', hindices'⟩ := Prod.mk.inj hpv
    have hflat : g'.FlattensAll sources _ _ p.grammar :=
      .cons ⟨1, o, ho, hvalue, rfl, rfl⟩ (.cons ⟨1, p, hp, hvalue', rfl, rfl⟩ .nil)
    have hdrawn : (o.draws ++ (p.draws ++ [])).filterMap Event.index? = [1, 0, 1] := by
      rw [List.append_nil, List.filterMap_append, hindices, hindices']
      rfl
    have htable := ((replay_of_repeats g').2 sources _ _ _ hflat).2
    simp only [hdrawn] at htable
    exact ⟨_, _, p.grammar, hflat, rfl, hdrawn, htable⟩

end Grammar

end TextGrammar
