import TextGrammar.Proofs.Run.Nesting
import TextGrammar.Proofs.Run.Unguarded

/-!
# TextGrammar.Proofs.Run.Result — what an evaluation gives

From outside an evaluation is seen by its text, the draws that it asks for, and the state that it leaves
(`Tree.Gives`, and `Grammar.Flattens` for a source text).  How keys are expanded inside of it is not
seen.  An evaluation that does not come to an end gives nothing, so two sides that give the same under
all circumstances also come to an end under the same circumstances.
-/

namespace TextGrammar

/-- The draws of a run in order, with their bounds and indices. -/
def Outcome.draws {α : Type} (o : Outcome α) : List Event := o.events.filter Event.isDraw

@[simp] theorem Outcome.draws_empty {α : Type} (a : α) (g : Grammar) :
    (⟨a, ∅, g⟩ : Outcome α).draws = [] := rfl

@[simp] theorem Outcome.draws_behind {α β : Type} (p : Outcome β) (o : Outcome α) :
    (p.behind o).draws = o.draws ++ p.draws := by
  rw [draws, events_behind, List.filter_append]
  rfl

/-- The events around an expansion are no draws. -/
theorem Outcome.draws_ofRead (key : Text) (depth : Nat) (o p : Outcome (Chain Char)) :
    (ofRead key depth o p).draws = o.draws ++ p.draws := by
  rw [draws, events_ofRead, List.filter_cons_of_neg (by simp [Event.isDraw, Event.bound?]),
    List.filter_append, List.filter_cons_of_neg (by simp [Event.isDraw, Event.bound?])]
  rfl

theorem Outcome.draws_deeper {α : Type} (o : Outcome α) : o.deeper.draws = o.draws :=
  Event.filter_isDraw_deeper o.events

theorem Run.flatten_mono {m n : Nat} (hmn : m ≤ n) {s : Text} {g : Grammar} {o : Outcome Text}
    (h : (Run.flatten m s).full g = some o) : (Run.flatten n s).full g = some o :=
  Tree.resolve_mono hmn h

/-- Evaluating the tree from `g` comes to an end with the text, after the draws, in the state `h`. -/
def Tree.Gives (t : Tree) (g : Grammar) (text : Text) (draws : List Event) (h : Grammar) : Prop :=
  ∃ o, t.Yields g o ∧ o.value = text ∧ o.draws = draws ∧ o.grammar = h

/-- Reading the source text and evaluating it from `g` comes to an end with the text, after the draws,
in the state `h`. -/
def Grammar.Flattens (g : Grammar) (source text : Text) (draws : List Event) (h : Grammar) : Prop :=
  ∃ nesting o, (Run.flatten nesting source).full g = some o ∧
    o.value = text ∧ o.draws = draws ∧ o.grammar = h

theorem Grammar.flattens_iff {g h : Grammar} {source text : Text} {draws : List Event} :
    g.Flattens source text draws h ↔ (Tree.parse source).Gives g text draws h := by
  constructor
  · rintro ⟨nesting, o, ho, hseen⟩
    exact ⟨o, ⟨nesting, ho⟩, hseen⟩
  · rintro ⟨o, ⟨nesting, ho⟩, hseen⟩
    exact ⟨nesting, o, ho, hseen⟩

theorem Tree.gives_iff_write {t : Tree} {g h : Grammar} {text : Text} {draws : List Event} :
    t.Gives g text draws h ↔ ∃ nesting o, (t.write nesting).full g = some o ∧
      o.value.toList = text ∧ o.draws = draws ∧ o.grammar = h := by
  constructor
  · rintro ⟨o, ho, hseen⟩
    obtain ⟨nesting, p, hp, rfl⟩ := ho.exists_write
    exact ⟨nesting, p, hp, hseen⟩
  · rintro ⟨nesting, o, ho, hseen⟩
    refine ⟨{ o with value := o.value.toList }, ⟨nesting, ?_⟩, hseen⟩
    rw [full_resolve, ho]
    rfl

/-- **What a source text gives is determined** by the state. -/
theorem Grammar.Flattens.unique {g h h' : Grammar} {source text text' : Text}
    {draws draws' : List Event} (hg : g.Flattens source text draws h)
    (hg' : g.Flattens source text' draws' h') : text = text' ∧ draws = draws' ∧ h = h' := by
  obtain ⟨o, ho, rfl, rfl, rfl⟩ := flattens_iff.1 hg
  obtain ⟨p, hp, rfl, rfl, rfl⟩ := flattens_iff.1 hg'
  obtain rfl := ho.unique hp
  exact ⟨rfl, rfl, rfl⟩

namespace Grammar

/-- Flattening the source texts one after the other from `g` comes to an end with the texts, after the
draws, in the state `h`. -/
inductive FlattensAll : Grammar → List Text → List Text → List Event → Grammar → Prop
  | nil {g : Grammar} : FlattensAll g [] [] [] g
  | cons {g g₁ h : Grammar} {source text : Text} {sources texts : List Text}
    {draws draws' : List Event} (first : g.Flattens source text draws g₁)
    (rest : FlattensAll g₁ sources texts draws' h) :
    FlattensAll g (source :: sources) (text :: texts) (draws ++ draws') h

/-- **What texts give one after the other is determined** by the state. -/
theorem FlattensAll.unique {g h h' : Grammar} {sources texts texts' : List Text}
    {draws draws' : List Event} (hg : g.FlattensAll sources texts draws h)
    (hg' : g.FlattensAll sources texts' draws' h') : texts = texts' ∧ draws = draws' ∧ h = h' := by
  induction hg generalizing texts' draws' with
  | nil =>
    cases hg'
    exact ⟨rfl, rfl, rfl⟩
  | cons first _ ih =>
    cases hg' with
    | cons first' rest' =>
      obtain ⟨rfl, rfl, rfl⟩ := first.unique first'
      obtain ⟨rfl, rfl, rfl⟩ := ih rest'
      exact ⟨rfl, rfl, rfl⟩

/-- Behind the first texts the others are flattened from the state that these leave. -/
theorem FlattensAll.exists_of_append {g h : Grammar} {sources sources' texts : List Text}
    {draws : List Event} (hg : g.FlattensAll (sources ++ sources') texts draws h) :
    ∃ texts₁ draws₁ g₁ texts₂ draws₂, g.FlattensAll sources texts₁ draws₁ g₁ ∧
      g₁.FlattensAll sources' texts₂ draws₂ h ∧ texts = texts₁ ++ texts₂ ∧
        draws = draws₁ ++ draws₂ := by
  induction sources generalizing g texts draws with
  | nil => exact ⟨[], [], g, texts, draws, .nil, hg, rfl, rfl⟩
  | cons s sources ih =>
    obtain _ | ⟨first, rest⟩ := hg
    obtain ⟨texts₁, draws₁, g₁, texts₂, draws₂, h₁, h₂, rfl, rfl⟩ := ih rest
    exact ⟨_, _, g₁, texts₂, draws₂, .cons first h₁, h₂, rfl, by rw [List.append_assoc]⟩

end Grammar

end TextGrammar
