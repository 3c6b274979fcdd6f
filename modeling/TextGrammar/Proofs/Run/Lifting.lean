import Mathlib.Data.List.Forall2
import TextGrammar.Proofs.Run.Full
import TextGrammar.Tree.Content

/-!
# TextGrammar.Proofs.Run.Lifting — what evaluation preserves

A lifting turns a relation on values into a relation on the runs that yield them, and carries it
through one run after the other.  Evaluation keeps to a lifting if its operations do
(`Run.Lifting.Evaluates`): the induction over trees, calls and lists is made here once
(`Run.Lifting.Evaluates.writeWith`), and every property of evaluation is one lifting with one fact for
each operation.

Two trees are related by a relation `T` that is looked into one layer at a time (`Tree.Layer`), so it
can be equality as well as a relation that holds between different trees.  `may` says which operations
on keys the trees contain; a tree that contains no others can be looked into with equality
(`Tree.MentionsOnly.layer`).  `heed` says which parts of a tree can be evaluated at all; the others need
not be related.
-/

namespace TextGrammar

/-- A relation on runs for each relation on their values, kept from one run to the next. -/
structure Run.Lifting where
  Holds : {α β : Type} → (α → β → Prop) → Run α → Run β → Prop
  pure : ∀ {α β : Type} {V : α → β → Prop} {a b}, V a b → Holds V (pure a) (pure b)
  bind : ∀ {α β γ δ : Type} {V : α → β → Prop} {W : γ → δ → Prop} {x : Run α} {y : Run β}
    {f : α → Run γ} {k : β → Run δ}, Holds V x y → (∀ a b, V a b → Holds W (f a) (k b)) →
      Holds W (x >>= f) (y >>= k)

/-- The texts of two chains are related. -/
def Chain.Related (X : Text → Text → Prop) (a b : Chain Char) : Prop := X a.toList b.toList

namespace Tree

/-- The parts of trees that are taken notice of: the parameters of calls by these names, and the
alternatives of a choice between so many at these indices. -/
structure Heed where
  calls : Text → Prop
  indices : (bound index : Nat) → Prop

/-- Everything is taken notice of. -/
def Heed.all : Heed := ⟨fun _ => True, fun _ _ => True⟩

/-- Two trees have the same form at their root: the same keys and names, `T` between the trees
below as far as they are taken notice of, `X` between the texts.  The operation on the key, if there is
one, is allowed. -/
inductive Layer (T : Tree → Tree → Prop) (X : Text → Text → Prop) (may : Mention → Prop)
    (heed : Heed) : Tree → Tree → Prop
  | literal {s t : Text} (texts : X s t) : Layer T X may heed (.literal s) (.literal t)
  | symbol {key : Text} {cs ds : List Call} (allowed : may (.read key))
    (calls : List.Forall₂ (fun c d => c.name = d.name ∧
      (heed.calls c.name → List.Forall₂ T c.params d.params)) cs ds) :
    Layer T X may heed (.symbol key cs) (.symbol key ds)
  | concat {ts us : List Tree} (items : List.Forall₂ T ts us) :
    Layer T X may heed (.concat ts) (.concat us)
  | push {key : Text} {v w : Tree} (allowed : may (.push key)) (value : T v w) :
    Layer T X may heed (.push key v) (.push key w)
  | pop {key : Text} (allowed : may (.pop key)) : Layer T X may heed (.pop key) (.pop key)
  | select {ts us : List Tree} (length : ts.length = us.length)
    (alternatives : ∀ i, heed.indices ts.length i → Option.Rel T ts[i]? us[i]?) :
    Layer T X may heed (.select ts) (.select us)

namespace Layer

variable {T : Tree → Tree → Prop} {X : Text → Text → Prop} {may : Mention → Prop} {heed : Heed}

theorem rel_getElem? {ts us : List Tree} (h : List.Forall₂ T ts us) (i : Nat) :
    Option.Rel T ts[i]? us[i]? := by
  induction h generalizing i with
  | nil => exact .none
  | cons ht _ ih =>
    cases i with
    | zero => exact .some ht
    | succ i => exact ih i

/-- A symbol with parameters that are all related. -/
theorem symbol_all {key : Text} {cs ds : List Call} (allowed : may (.read key))
    (calls : List.Forall₂ (fun c d => c.name = d.name ∧ List.Forall₂ T c.params d.params) cs ds) :
    (Tree.symbol key cs).Layer T X may heed (.symbol key ds) :=
  .symbol allowed (calls.imp fun _ _ h => ⟨h.1, fun _ => h.2⟩)

/-- A choice between alternatives that are all related. -/
theorem select_all {ts us : List Tree} (alternatives : List.Forall₂ T ts us) :
    (Tree.select ts).Layer T X may heed (.select us) :=
  .select alternatives.length_eq fun i _ => rel_getElem? alternatives i

protected theorem refl (t : Tree) : t.Layer Eq Eq (fun _ => True) heed t := by
  have hlist : ∀ ts : List Tree, List.Forall₂ Eq ts ts := fun ts => List.forall₂_refl ts
  cases t with
  | literal text => exact .literal rfl
  | symbol key calls =>
    exact .symbol_all trivial (List.forall₂_same.2 fun c _ => ⟨rfl, hlist c.params⟩)
  | concat items => exact .concat (hlist items)
  | push key value => exact .push trivial rfl
  | pop key => exact .pop trivial
  | select alternatives => exact .select_all (hlist alternatives)

theorem imp {Y : Text → Text → Prop} {t u : Tree} (h : t.Layer T X may heed u)
    (hX : ∀ s t, X s t → Y s t) : t.Layer T Y may heed u := by
  cases h with
  | literal texts => exact .literal (hX _ _ texts)
  | symbol allowed calls => exact .symbol allowed calls
  | concat items => exact .concat items
  | push allowed value => exact .push allowed value
  | pop allowed => exact .pop allowed
  | select length alternatives => exact .select length alternatives

theorem of_eq {t u : Tree} (h : t = u) : t.Layer Eq Eq (fun _ => True) heed u := h ▸ .refl t

end Layer

/-! ### Trees that mention only what is allowed -/

/-- Everything that the tree does with keys is allowed. -/
def MentionsOnly (may : Mention → Prop) (t : Tree) : Prop := ∀ m ∈ t.mentions, may m

namespace MentionsOnly

variable {may : Mention → Prop}

theorem literal (text : Text) : (Tree.literal text).MentionsOnly may := by
  intro m hm
  cases hm

theorem all {ts : List Tree} (h : ∀ m ∈ mentionsOfAll ts, may m) : ∀ t ∈ ts, t.MentionsOnly may := by
  intro t ht m hm
  rw [mentionsOfAll_eq_flatMap] at h
  exact h m (List.mem_flatMap.2 ⟨t, ht, hm⟩)

theorem calls {cs : List Call} (h : ∀ m ∈ mentionsOfCalls cs, may m) :
    ∀ c ∈ cs, ∀ p ∈ c.params, p.MentionsOnly may := by
  intro c hc
  obtain ⟨name, params⟩ := c
  refine all fun m hm => ?_
  rw [mentionsOfCalls_eq_flatMap] at h
  exact h m (List.mem_flatMap.2 ⟨_, hc, hm⟩)

/-- What stands below the root of such a tree is such a tree. -/
theorem layer {heed : Heed} {t : Tree} (h : t.MentionsOnly may) :
    t.Layer (fun t u => t = u ∧ t.MentionsOnly may) Eq may heed t := by
  have hlist : ∀ {ts : List Tree}, (∀ t ∈ ts, t.MentionsOnly may) →
      List.Forall₂ (fun t u => t = u ∧ t.MentionsOnly may) ts ts :=
    fun h => List.forall₂_same.2 fun t ht => ⟨rfl, h t ht⟩
  unfold MentionsOnly at h
  cases t with
  | literal text => exact .literal rfl
  | symbol key cs =>
    rw [mentions, List.forall_mem_cons] at h
    have hcalls := calls h.2
    exact .symbol_all h.1 (List.forall₂_same.2 fun c hc => ⟨rfl, hlist (hcalls c hc)⟩)
  | concat items => exact .concat (hlist (all h))
  | push key value =>
    rw [mentions, List.forall_mem_cons] at h
    exact .push h.1 ⟨rfl, h.2⟩
  | pop key =>
    rw [mentions, List.forall_mem_cons] at h
    exact .pop h.1
  | select alternatives => exact .select_all (hlist (all h))

end MentionsOnly

end Tree

namespace Run.Lifting

/-- The operations of evaluation keep to a lifting, with `expand` and `expand'` for the values of
keys. -/
structure Evaluates (L : Run.Lifting) (T : Tree → Tree → Prop) (X : Text → Text → Prop)
    (may : Mention → Prop) (heed : Tree.Heed) (expand expand' : Tree → Run (Chain Char)) : Prop where
  layer : ∀ {t u}, T t u → t.Layer T X may heed u
  nil : X [] []
  append : ∀ {s s' t t'}, X s s' → X t t' → X (s ++ t) (s' ++ t')
  read : ∀ {key} {f k : Chain Char → Run (Chain Char)}, may (.read key) →
    (∀ a b, a.Related X b → L.Holds (Chain.Related X) (f a) (k b)) →
    L.Holds (Chain.Related X) (Run.read key expand f) (Run.read key expand' k)
  modify : ∀ {name} {a b : Chain Char} {x y : Run (List (Chain Char))}, a.Related X b →
    (heed.calls name → L.Holds (List.Forall₂ (Chain.Related X)) x y) →
    L.Holds (Chain.Related X) (Run.modify name a x) (Run.modify name b y)
  push : ∀ {key s t}, may (.push key) → X s t →
    L.Holds (fun _ _ => True) (Run.push key (.literal s)) (Run.push key (.literal t))
  pop : ∀ {key}, may (.pop key) → L.Holds (fun _ _ => True) (Run.pop key) (Run.pop key)
  draw : ∀ bound, L.Holds (fun i j => i = j ∧ (bound ≠ 0 → heed.indices bound i)) (Run.draw bound)
    (Run.draw bound)

namespace Evaluates

variable {L : Run.Lifting} {T : Tree → Tree → Prop} {X : Text → Text → Prop}
  {may : Mention → Prop} {heed : Tree.Heed} {expand expand' : Tree → Run (Chain Char)}

theorem join (h : L.Evaluates T X may heed expand expand') {as bs : List (Chain Char)}
    (hab : List.Forall₂ (Chain.Related X) as bs) : (Chain.join as).Related X (Chain.join bs) := by
  induction hab with
  | nil => exact h.nil
  | cons hc _ ih =>
    rw [Chain.Related, Chain.toList_join, Chain.toList_join] at ih ⊢
    exact h.append hc ih

/-! ### Lists of trees and calls

The hypothesis `ih` stands for the trees of the list, which are smaller than the tree around them. -/

theorem writeAllWith {ts us : List Tree} (htu : List.Forall₂ T ts us)
    (ih : ∀ t ∈ ts, ∀ u, T t u →
      L.Holds (Chain.Related X) (t.writeWith expand) (u.writeWith expand')) :
    L.Holds (List.Forall₂ (Chain.Related X)) (writeAllWith expand ts)
      (writeAllWith expand' us) := by
  induction htu with
  | nil =>
    rw [TextGrammar.writeAllWith, TextGrammar.writeAllWith]
    exact L.pure .nil
  | cons ht _ ihs =>
    obtain ⟨iht, ihts⟩ := List.forall_mem_cons.1 ih
    rw [TextGrammar.writeAllWith, TextGrammar.writeAllWith]
    refine L.bind (iht _ ht) fun a b hab => ?_
    exact L.bind (ihs ihts) fun as bs hs => L.pure (.cons hab hs)

/-- Only the alternatives at the index count. -/
theorem writeNthWith (h : L.Evaluates T X may heed expand expand') {ts us : List Tree} {i : Nat}
    (hi : Option.Rel T ts[i]? us[i]?)
    (ih : ∀ t ∈ ts, ∀ u, T t u →
      L.Holds (Chain.Related X) (t.writeWith expand) (u.writeWith expand')) :
    L.Holds (Chain.Related X) (writeNthWith expand i ts) (writeNthWith expand' i us) := by
  generalize ht : ts[i]? = x, hu : us[i]? = y at hi
  cases hi with
  | none =>
    rw [Tree.writeNthWith_of_getElem?_eq_none _ ht, Tree.writeNthWith_of_getElem?_eq_none _ hu]
    exact L.pure h.nil
  | some htu =>
    rw [Tree.writeNthWith_of_getElem? _ ht, Tree.writeNthWith_of_getElem? _ hu]
    exact ih _ (List.mem_of_getElem? ht) _ htu

theorem applyAllWith (h : L.Evaluates T X may heed expand expand') {cs ds : List Call}
    (hcd : List.Forall₂ (fun c d => c.name = d.name ∧
      (heed.calls c.name → List.Forall₂ T c.params d.params)) cs ds)
    (ih : ∀ c ∈ cs, ∀ t ∈ c.params, ∀ u, T t u →
      L.Holds (Chain.Related X) (t.writeWith expand) (u.writeWith expand'))
    (a b : Chain Char) (hab : a.Related X b) :
    L.Holds (Chain.Related X) (applyAllWith expand cs a) (applyAllWith expand' ds b) := by
  induction hcd generalizing a b with
  | nil =>
    rw [TextGrammar.applyAllWith, TextGrammar.applyAllWith]
    exact L.pure hab
  | @cons c d _ _ hc _ ihs =>
    obtain ⟨ihc, ihcs⟩ := List.forall_mem_cons.1 ih
    obtain ⟨name, params⟩ := c
    obtain ⟨name', params'⟩ := d
    obtain ⟨rfl, hp⟩ := hc
    rw [TextGrammar.applyAllWith, TextGrammar.applyAllWith]
    refine L.bind ?_ (ihs ihcs)
    rw [Call.applyWith_mk, Call.applyWith_mk]
    exact h.modify hab fun hname => writeAllWith (hp hname) ihc

/-! ### Trees -/

/-- **Evaluation keeps to the lifting** on related trees, by induction on the first of them. -/
theorem writeWith (h : L.Evaluates T X may heed expand expand') {t u : Tree} (htu : T t u) :
    L.Holds (Chain.Related X) (t.writeWith expand) (u.writeWith expand') := by
  -- on the tree; for the values that `expand` evaluates there is the assumption on it
  induction t generalizing u with
  | literal text =>
    cases h.layer htu with
    | literal texts =>
      rw [Tree.writeWith, Tree.writeWith]
      exact L.pure texts
  | symbol key calls ih =>
    cases h.layer htu with
    | symbol allowed calls =>
      rw [Tree.writeWith_symbol, Tree.writeWith_symbol]
      exact h.read allowed (h.applyAllWith calls fun c hc p hp u hu => ih c hc p hp hu)
  | concat items ih =>
    cases h.layer htu with
    | concat items =>
      rw [Tree.writeWith, Tree.writeWith]
      refine L.bind (writeAllWith items fun t ht u hu => ih t ht hu) fun as bs hs => ?_
      exact L.pure (h.join hs)
  | push key value ih =>
    cases h.layer htu with
    | push allowed value =>
      rw [Tree.writeWith, Tree.writeWith]
      refine L.bind (ih value) fun a b hab => ?_
      exact L.bind (h.push allowed hab) fun _ _ _ => L.pure h.nil
  | pop key =>
    cases h.layer htu with
    | pop allowed =>
      rw [Tree.writeWith, Tree.writeWith]
      exact L.bind (h.pop allowed) fun _ _ _ => L.pure h.nil
  | select ts ih =>
    cases h.layer htu with
    | @select _ us length alternatives =>
      rw [Tree.writeWith, Tree.writeWith, ← length]
      refine L.bind (h.draw _) ?_
      rintro i _ ⟨rfl, hi⟩
      refine h.writeNthWith ?_ fun t ht u hu => ih t ht hu
      -- an empty choice draws nothing, and neither side has a tree at any index
      by_cases hts : ts.length = 0
      · rw [List.getElem?_eq_none (by omega), List.getElem?_eq_none (by omega)]
        exact .none
      · exact alternatives i (hi hts)

end Evaluates

end Run.Lifting

end TextGrammar
