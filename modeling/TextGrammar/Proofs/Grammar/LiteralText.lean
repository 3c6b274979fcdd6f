import TextGrammar.Proofs.Run.Nesting

/-!
# TextGrammar.Proofs.Grammar.LiteralText — literal text decides nothing

Two trees are alike if they differ in the texts of their literals only (`Tree.Alike`), and two states
if alike trees stand at the same places of their stacks, and modifiers under the same names
(`Grammar.Alike`).  What a modifier answers and what is laid on a stack is literal text, so alike states
stay alike: evaluation asks for the same indices, expands the same keys, and ends on one side if it ends
on the other (`Tree.resolve_alike`).  No text that is evaluated is ever read as grammar.
-/

namespace TextGrammar

/-! ### Trees without their literal texts -/

mutual

/-- The tree with every literal emptied. -/
def Tree.blanked : Tree → Tree
  | .literal _ => .literal []
  | .symbol key calls => .symbol key (blankedCalls calls)
  | .concat items => .concat (blankedAll items)
  | .push key value => .push key value.blanked
  | .pop key => .pop key
  | .select alternatives => .select (blankedAll alternatives)

def Call.blanked : Call → Call
  | .mk name params => .mk name (blankedAll params)

def blankedAll : List Tree → List Tree
  | [] => []
  | t :: ts => t.blanked :: blankedAll ts

def blankedCalls : List Call → List Call
  | [] => []
  | c :: cs => c.blanked :: blankedCalls cs

end

@[simp] theorem blankedAll_eq_map (ts : List Tree) : blankedAll ts = ts.map Tree.blanked := by
  induction ts with
  | nil => rfl
  | cons t ts ih => simp [blankedAll, ih]

@[simp] theorem blankedCalls_eq_map (cs : List Call) : blankedCalls cs = cs.map Call.blanked := by
  induction cs with
  | nil => rfl
  | cons c cs ih => simp [blankedCalls, ih]

/-- The trees differ in the texts of their literals only. -/
def Tree.Alike (t u : Tree) : Prop := t.blanked = u.blanked

theorem map_eq_map_iff_forall₂ {α β : Type} {f : α → β} {as bs : List α} :
    as.map f = bs.map f ↔ List.Forall₂ (fun a b => f a = f b) as bs := by
  have hmap : List.Forall₂ (fun a b => f a = f b) as bs ↔
      List.Forall₂ Eq (as.map f) (bs.map f) := by
    rw [List.forall₂_map_left_iff, List.forall₂_map_right_iff]
  rw [hmap, List.forall₂_eq_eq_eq]

theorem Tree.Alike.layer {heed : Tree.Heed} {t u : Tree} (h : t.Alike u) :
    t.Layer Tree.Alike (fun _ _ => True) (fun _ => True) heed u := by
  have hlist : ∀ {ts us : List Tree}, ts.map blanked = us.map blanked →
      List.Forall₂ Tree.Alike ts us := fun h => map_eq_map_iff_forall₂.1 h
  -- blanked trees are equal only with the same constructor at the root
  cases t <;> cases u <;> simp [Alike, blanked] at h
  case literal.literal => exact .literal trivial
  case symbol.symbol key cs _ ds =>
    obtain ⟨rfl, h⟩ := h
    refine .symbol_all trivial ((map_eq_map_iff_forall₂.1 h).imp ?_)
    rintro ⟨name, params⟩ ⟨name', params'⟩ hc
    simp [Call.blanked] at hc
    exact ⟨hc.1, hlist hc.2⟩
  case concat.concat => exact .concat (hlist h)
  case push.push =>
    obtain ⟨rfl, h⟩ := h
    exact .push trivial h
  case pop.pop =>
    obtain rfl := h
    exact .pop trivial
  case select.select => exact .select_all (hlist h)

/-! ### States without their literal texts -/

/-- Alike trees stand at the same places of the stacks, modifiers under the same names; all else is
the same. -/
def Grammar.Alike (g h : Grammar) : Prop :=
  g.Related (fun _ => List.Forall₂ Tree.Alike) (fun m m' => m.keys = m'.keys) h

theorem Grammar.Alike.symm {g h : Grammar} (hgh : g.Alike h) : h.Alike g :=
  hgh.flip (fun _ _ _ hst => hst.flip.imp fun _ _ hab => Eq.symm hab) Eq.symm

/-- Maps with the same keys have values under the same keys. -/
theorem KeyMap.rel_get?_of_keys_eq {α β : Type} {m : KeyMap α} {m' : KeyMap β}
    (h : m.keys = m'.keys) {R : α → β → Prop} (hR : ∀ a b, R a b) (key : Text) :
    Option.Rel R (m.get? key) (m'.get? key) := by
  have hmem : (m.get? key).isSome = true ↔ (m'.get? key).isSome = true := by
    rw [← mem_keys_iff, ← mem_keys_iff, h]
  cases hm : m.get? key with
  | none =>
    cases hm' : m'.get? key with
    | none => exact .none
    | some b => simp [hm, hm'] at hmem
  | some a =>
    cases hm' : m'.get? key with
    | none => simp [hm, hm'] at hmem
    | some b => exact .some (hR a b)

/-! ### Runs side by side -/

namespace Event

/-- The event without the text that it carries. -/
def blanked : Event → Event
  | expanded key _ => expanded key ∅
  | e => e

theorem bound?_blanked (e : Event) : e.blanked.bound? = e.bound? := by
  cases e <;> rfl

end Event

/-- The same events but for texts ask for the same bounds. -/
theorem Outcome.bounds_eq {α : Type} {o p : Outcome α}
    (h : o.events.map Event.blanked = p.events.map Event.blanked) : o.bounds = p.bounds := by
  have hb : ∀ es : List Event,
      es.filterMap Event.bound? = (es.map Event.blanked).filterMap Event.bound? := by
    intro es
    rw [List.filterMap_map]
    exact List.filterMap_congr fun e _ => (Event.bound?_blanked e).symm
  rw [bounds, bounds, hb, h, ← hb]

theorem Run.respects_alike :
    Run.Respects (fun _ => List.Forall₂ Tree.Alike) (fun m m' => m.keys = m'.keys) (fun _ => True)
      (fun e e' => e.blanked = e'.blanked) Tree.Alike (fun _ _ => True) (fun _ => True) .all where
  text _ := trivial
  append _ _ := trivial
  event _ := rfl
  expanded _ _ _ _ := rfl
  layer := Tree.Alike.layer
  lookup _ hst := rel_head?_of_forall₂ hst
  modifier hm := KeyMap.rel_get?_of_keys_eq hm fun _ _ _ _ _ _ _ _ => trivial
  registered _ _ := trivial
  push _ _ hst := .cons rfl hst
  pop _ hst := forall₂_tail hst
  drawn _ := trivial
  asked _ := trivial

namespace Tree

/-- **Alike trees in alike states do the same** but for texts. -/
theorem Alike.yields {t u : Tree} {g h : Grammar} (htu : t.Alike u) (hgh : g.Alike h)
    {o : Outcome Text} (ho : t.Yields g o) :
    ∃ p, u.Yields h p ∧ o.events.map Event.blanked = p.events.map Event.blanked ∧
      o.grammar.Alike p.grammar := by
  obtain ⟨p, hp, -, he, hg, -⟩ := Run.respects_alike.simulates.yields htu ⟨hgh, trivial⟩ ho
  exact ⟨p, hp, map_eq_map_iff_forall₂.2 he, hg⟩

/-- **Literal text never influences control**: alike trees in alike states both come to an end or
neither does, ask the source for the same bounds, go through the same events but for the texts that
these carry, and leave alike states. -/
theorem resolve_alike {t u : Tree} (htu : t.Alike u) {g h : Grammar} (hgh : g.Alike h) :
    ((∃ o, t.Yields g o) ↔ ∃ p, u.Yields h p) ∧
      ∀ o p, t.Yields g o → u.Yields h p → o.bounds = p.bounds ∧
        o.events.map Event.blanked = p.events.map Event.blanked ∧ o.grammar.Alike p.grammar := by
  refine yields_together (fun o ho => ?_) fun p hp => ?_
  · obtain ⟨p, hp, he, hg⟩ := htu.yields hgh ho
    exact ⟨p, hp, Outcome.bounds_eq he, he, hg⟩
  · obtain ⟨o, ho, -⟩ := Alike.yields (Eq.symm htu) hgh.symm hp
    exact ⟨o, ho⟩

/-- A tree that pushes a text, sends it through a modifier and draws between it and a key. -/
def echo (s : Text) : Tree :=
  concat [push ['k'] (literal s), symbol ['k'] [.mk ['f'] []],
    select [literal s, symbol ['n'] [.mk ['x'] [literal s]]]]

/-- A state for `echo`, with a modifier and one value. -/
def echoState (f : Modifier) (s : Text) : Grammar :=
  ((Grammar.ofSource (.fixed 1)).push ['n'] (literal s)).register ['f'] f

/-- Empty texts against texts made of marks, and a modifier that answers with marks. -/
theorem resolve_alike_marks :
    let marks : Text := ['#', 'n', '#', '[', 'n', ':', 'P', 'O', 'P', ']']
    let g := echoState (fun s _ => s) []
    let h := echoState (fun _ _ => marks) marks
    (echo []).Alike (echo marks) ∧ g.Alike h ∧
      ∃ o p, (echo []).Yields g o ∧ (echo marks).Yields h p ∧ o.value = unresolvedModifier ['x'] ∧
        p.value = marks ++ marks ++ unresolvedModifier ['x'] ∧ o.bounds = p.bounds ∧
        o.grammar.Alike p.grammar := by
  intro marks g h
  have htu : (echo []).Alike (echo marks) := rfl
  have hgh : g.Alike h := by
    refine ⟨fun key => ?_, rfl, rfl, rfl, rfl⟩
    show List.Forall₂ Tree.Alike
      (((Grammar.ofSource (.fixed 1)).push ['n'] (literal [])).stack key)
      (((Grammar.ofSource (.fixed 1)).push ['n'] (literal marks)).stack key)
    rw [Grammar.stack_push, Grammar.stack_push]
    split_ifs
    · exact .cons rfl .nil
    · exact .nil
  obtain ⟨o, ho, hov⟩ : ∃ o, ((echo []).resolve 1).full g = some o ∧
      o.value = unresolvedModifier ['x'] :=
    Option.map_eq_some_iff.1 (by decide +kernel)
  obtain ⟨p, hp, hpv⟩ : ∃ p, ((echo marks).resolve 1).full h = some p ∧
      p.value = marks ++ marks ++ unresolvedModifier ['x'] :=
    Option.map_eq_some_iff.1 (by decide +kernel)
  obtain ⟨hbounds, -, hstates⟩ := (resolve_alike htu hgh).2 o p ⟨1, ho⟩ ⟨1, hp⟩
  exact ⟨htu, hgh, o, p, ⟨1, ho⟩, ⟨1, hp⟩, hov, hpv, hbounds, hstates⟩

end Tree

end TextGrammar
