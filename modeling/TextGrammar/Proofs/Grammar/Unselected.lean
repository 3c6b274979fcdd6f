import TextGrammar.Proofs.Random.Source
import TextGrammar.Proofs.Run.Nesting

/-!
# TextGrammar.Proofs.Grammar.Unselected — what is not selected is never evaluated

Where the source always returns the same number, each choice has one alternative that can be drawn; the
others are dead, and so are the parameters of calls by names that no modifier has.  Two trees are the
same but for dead parts by `Tree.SameLive`, and two states if such trees stand at the same places of
their stacks (`Grammar.SameLive`).  Evaluation keeps to this relation and cannot tell the two sides apart
(`Tree.resolve_sameLive`): nothing dead is ever evaluated, however it came onto a stack.
-/

namespace TextGrammar

/-! ### Sources that always return one number -/

namespace Source

/-- Whatever was asked before and whatever is asked now, the answer is the number. -/
def AlwaysReturns (s : Source) (n : Nat) : Prop :=
  ∀ bounds bound, ((s.after bounds).ask bound).1 = n

theorem AlwaysReturns.ask {s : Source} {n : Nat} (h : s.AlwaysReturns n) (bound : Nat) :
    (s.ask bound).1 = n := h [] bound

theorem AlwaysReturns.next {s : Source} {n : Nat} (h : s.AlwaysReturns n) (bound : Nat) :
    (s.ask bound).2.AlwaysReturns n := fun bounds => h (bound :: bounds)

theorem fixed_alwaysReturns (n : Nat) : (fixed n).AlwaysReturns n := by
  have hall : ∀ bounds asked bound,
      (((ruled (fun _ => n) asked).after bounds).ask bound).1 = n := by
    intro bounds
    induction bounds with
    | nil => exact fun _ _ => rfl
    | cons b bounds ih => exact fun asked => ih (b :: asked)
  exact fun bounds => hall bounds []

end Source

/-! ### Trees that are the same but for dead parts -/

mutual

/-- The trees differ in dead parts only. -/
inductive Tree.SameLive (modifiers : KeyMap Modifier) (n : Nat) : Tree → Tree → Prop
  | literal {text : Text} : Tree.SameLive modifiers n (.literal text) (.literal text)
  | symbol {key : Text} {cs ds : List Call} (calls : List.Forall₂ (Call.SameLive modifiers n) cs ds) :
    Tree.SameLive modifiers n (.symbol key cs) (.symbol key ds)
  | concat {ts us : List Tree} (items : List.Forall₂ (Tree.SameLive modifiers n) ts us) :
    Tree.SameLive modifiers n (.concat ts) (.concat us)
  | push {key : Text} {v w : Tree} (value : Tree.SameLive modifiers n v w) :
    Tree.SameLive modifiers n (.push key v) (.push key w)
  | pop {key : Text} : Tree.SameLive modifiers n (.pop key) (.pop key)
  /-- Of so many alternatives only the one at the source's number counts, which wraps around. -/
  | select {ts us : List Tree} (length : ts.length = us.length)
    (drawn : Option.Rel (Tree.SameLive modifiers n) ts[n % ts.length]? us[n % ts.length]?) :
    Tree.SameLive modifiers n (.select ts) (.select us)

/-- The calls have the same name, and they differ in dead parts of their parameters only, unless no
modifier has the name. -/
inductive Call.SameLive (modifiers : KeyMap Modifier) (n : Nat) : Call → Call → Prop
  | same {name : Text} {ps qs : List Tree} (params : List.Forall₂ (Tree.SameLive modifiers n) ps qs) :
    Call.SameLive modifiers n (.mk name ps) (.mk name qs)
  | unregistered {name : Text} {ps qs : List Tree} (h : modifiers.get? name = none) :
    Call.SameLive modifiers n (.mk name ps) (.mk name qs)

end

/-- What is not dead. -/
def Tree.Heed.live (modifiers : KeyMap Modifier) (n : Nat) : Tree.Heed where
  calls name := (modifiers.get? name).isSome
  indices bound i := i = n % bound

theorem forall₂_flip {α β : Type} {R : α → β → Prop} {S : β → α → Prop} {as : List α} {bs : List β}
    (h : List.Forall₂ R as bs) (hRS : ∀ a ∈ as, ∀ b, R a b → S b a) : List.Forall₂ S bs as := by
  induction h with
  | nil => exact .nil
  | cons hab _ ih =>
    obtain ⟨ha, has⟩ := List.forall_mem_cons.1 hRS
    exact .cons (ha _ hab) (ih has)

namespace Tree.SameLive

variable {modifiers : KeyMap Modifier} {n : Nat} {t u : Tree}

theorem layer (h : t.SameLive modifiers n u) :
    t.Layer (Tree.SameLive modifiers n) Eq (fun _ => True) (.live modifiers n) u := by
  cases h with
  | literal => exact .literal rfl
  | symbol calls =>
    refine .symbol trivial (calls.imp fun c d hcd => ?_)
    cases hcd with
    | same params => exact ⟨rfl, fun _ => params⟩
    -- parameters of a name that no modifier has are not heeded
    | unregistered hname =>
      refine ⟨rfl, fun hlive => ?_⟩
      have hsome : (modifiers.get? _).isSome = true := hlive
      rw [Call.name, hname] at hsome
      cases hsome
  | concat items => exact .concat items
  | push value => exact .push trivial value
  | pop => exact .pop trivial
  | select length drawn =>
    refine .select length ?_
    rintro i rfl
    exact drawn

theorem symm (h : t.SameLive modifiers n u) : u.SameLive modifiers n t := by
  induction t generalizing u with
  | literal text =>
    cases h
    exact .literal
  | symbol key cs ih =>
    cases h with
    | symbol calls =>
      refine .symbol (forall₂_flip calls fun c hc d hcd => ?_)
      cases hcd with
      | same params => exact .same (forall₂_flip params fun p hp q hpq => ih _ hc p hp hpq)
      | unregistered hname => exact .unregistered hname
  | concat items ih =>
    cases h with
    | concat items => exact .concat (forall₂_flip items fun t ht u htu => ih t ht htu)
  | push key value ih =>
    cases h with
    | push value => exact .push (ih value)
  | pop key =>
    cases h
    exact .pop
  | select ts ih =>
    cases h with
    -- the index that counts is taken modulo the length, which is the same on both sides
    | @select _ us length drawn =>
      refine .select length.symm ?_
      rw [← length]
      generalize ht : ts[n % ts.length]? = x, us[n % ts.length]? = y at drawn
      cases drawn with
      | none => exact .none
      | some htu => exact .some (ih _ (List.mem_of_getElem? ht) htu)

end Tree.SameLive

/-! ### States that are the same but for dead parts -/

/-- Trees that are the same but for dead parts stand at the same places of the stacks; all else is the
same. -/
def Grammar.SameLive (n : Nat) (g h : Grammar) : Prop :=
  g.Related (fun _ => List.Forall₂ (Tree.SameLive g.modifiers n)) Eq h

theorem Grammar.SameLive.symm {n : Nat} {g h : Grammar} (hgh : g.SameLive n h) : h.SameLive n g := by
  refine hgh.flip (fun _ _ _ hst => ?_) Eq.symm
  rw [← hgh.modifiers]
  exact forall₂_flip hst fun _ _ _ htu => htu.symm

/-! ### Runs side by side -/

/-- In the course of a run the modifiers are still those of the start, and the source still returns the
number. -/
theorem Run.respects_sameLive (modifiers : KeyMap Modifier) (n : Nat) :
    Run.Respects (fun _ => List.Forall₂ (Tree.SameLive modifiers n))
      (fun m m' => m = modifiers ∧ m' = modifiers) (Source.AlwaysReturns · n) Eq
      (Tree.SameLive modifiers n) Eq (fun _ => True) (.live modifiers n) where
  toObserves := Run.observes_eq
  layer := Tree.SameLive.layer
  lookup _ hst := rel_head?_of_forall₂ hst
  modifier := by
    rintro _ _ ⟨rfl, rfl⟩ name
    exact modifier_refl _
  registered := by
    rintro _ _ name f ⟨rfl, rfl⟩ hf
    exact Option.isSome_of_eq_some hf
  push := by
    rintro key s _ a b - rfl hst
    exact .cons .literal hst
  pop _ hst := forall₂_tail hst
  -- the source always answers with `n`, so the alternative drawn is the one that was compared
  drawn := by
    intro bound s hn
    rw [hn.ask bound]
    rfl
  asked hn := hn.next _

namespace Tree

theorem SameLive.yields {n : Nat} {g h : Grammar} (hgh : g.SameLive n h)
    (hn : g.source.AlwaysReturns n) {t u : Tree} (htu : t.SameLive g.modifiers n u)
    {o : Outcome Text} (ho : t.Yields g o) :
    ∃ p, u.Yields h p ∧ o.value = p.value ∧ o.events = p.events ∧ o.grammar.SameLive n p.grammar := by
  have hstart : g.Related (fun _ => List.Forall₂ (Tree.SameLive g.modifiers n))
      (fun m m' => m = g.modifiers ∧ m' = g.modifiers) h :=
    hgh.imp (fun _ _ _ hst => hst) fun hm => ⟨rfl, hm.symm⟩
  obtain ⟨p, hp, hv, he, hend, -⟩ :=
    (Run.respects_sameLive g.modifiers n).simulates.yields htu ⟨hstart, hn⟩ ho
  rw [List.forall₂_eq_eq_eq] at he
  refine ⟨p, hp, hv, he, hend.imp (fun _ _ _ hst => ?_) fun hm => hm.1.trans hm.2.symm⟩
  rw [hend.modifiers.1]
  exact hst

/-- **What is not selected or not callable is never evaluated.**  Where the source always returns the
same number, trees and states that are the same but for dead parts come to an end on both sides or on
neither; then they give the same text after the same draws, and leave such states again. -/
theorem resolve_sameLive {n : Nat} {g h : Grammar} (hgh : g.SameLive n h)
    (hn : g.source.AlwaysReturns n) {t u : Tree} (htu : t.SameLive g.modifiers n u) :
    ((∃ o, t.Yields g o) ↔ ∃ p, u.Yields h p) ∧
      ∀ o p, t.Yields g o → u.Yields h p →
        o.value = p.value ∧ o.bounds = p.bounds ∧ o.events = p.events ∧
          o.grammar.SameLive n p.grammar := by
  refine yields_together (fun o ho => ?_) fun p hp => ?_
  · obtain ⟨p, hp, hv, he, hend⟩ := SameLive.yields hgh hn htu ho
    have hbounds : o.bounds = p.bounds := by rw [Outcome.bounds, Outcome.bounds, he]
    exact ⟨p, hp, hv, hbounds, he, hend⟩
  · have hn' : h.source.AlwaysReturns n := hgh.source ▸ hn
    have hut : u.SameLive h.modifiers n t := hgh.modifiers ▸ htu.symm
    obtain ⟨o, ho, -⟩ := SameLive.yields hgh.symm hn' hut hp
    exact ⟨o, ho⟩

/-- A state in which `r` expands to itself without end and `k` draws the second of three trees, between
two that are never drawn. -/
def unselectedState (dead : Tree) : Grammar :=
  (((Grammar.ofSource (.fixed 4)).register ['f'] fun s _ => s ++ ['!']).push ['r']
    (symbol ['r'] [])).push ['k'] (select [dead, literal ['x'], dead])

/-- A tree that reads `k` with parameters for a name that no modifier has, changes `k`, and draws. -/
def unselected (params : List Tree) (dead : Tree) : Tree :=
  concat [symbol ['k'] [.mk ['u'] params, .mk ['f'] []], push ['k'] (symbol ['k'] []),
    select [symbol ['k'] [], dead]]

/-- An expansion without end against changes of the stacks that are read. -/
theorem resolve_sameLive_endless :
    let t := unselected [symbol ['r'] []] (symbol ['r'] [])
    let u := unselected [] (push ['k'] (literal ['y']))
    let g := unselectedState (symbol ['r'] [])
    let h := unselectedState (concat [pop ['k'], push ['r'] (literal [])])
    t.SameLive g.modifiers 4 u ∧ g.SameLive 4 h ∧ g.source.AlwaysReturns 4 ∧
      ∃ o p, t.Yields g o ∧ u.Yields h p ∧ o.value = "x((.u))!x".toList ∧ o.value = p.value ∧
        o.bounds = [3, 3, 2] ∧ o.bounds = p.bounds ∧ o.grammar.SameLive 4 p.grammar := by
  intro t u g h
  have htu : t.SameLive g.modifiers 4 u := by
    have hcalls : List.Forall₂ (Call.SameLive g.modifiers 4)
        [.mk ['u'] [symbol ['r'] []], .mk ['f'] []] [.mk ['u'] [], .mk ['f'] []] :=
      .cons (.unregistered rfl) (.cons (.same .nil) .nil)
    refine .concat (.cons (.symbol hcalls) (.cons (.push (.symbol .nil)) (.cons ?_ .nil)))
    exact .select rfl (.some (.symbol .nil))
  have hgh : g.SameLive 4 h := by
    let base := (Grammar.ofSource (.fixed 4)).register ['f'] fun s _ => s ++ ['!']
    have hbase : base.Related (fun _ => List.Forall₂ (Tree.SameLive g.modifiers 4)) Eq base :=
      ⟨fun _ => .nil, rfl, rfl, rfl, rfl⟩
    refine (hbase.push fun _ _ => .cons (.symbol .nil)).push fun _ _ => .cons ?_
    exact .select rfl (.some .literal)
  have hn : g.source.AlwaysReturns 4 := Source.fixed_alwaysReturns 4
  obtain ⟨o, ho, hseen⟩ : ∃ o, (t.resolve 1).full g = some o ∧
      (o.value, o.bounds) = ("x((.u))!x".toList, [3, 3, 2]) :=
    Option.map_eq_some_iff.1 (by decide +kernel)
  obtain ⟨hov, hob⟩ := Prod.mk.inj hseen
  obtain ⟨p, hp⟩ := (resolve_sameLive hgh hn htu).1.1 ⟨o, 1, ho⟩
  obtain ⟨hv, hbounds, -, hend⟩ := (resolve_sameLive hgh hn htu).2 o p ⟨1, ho⟩ hp
  exact ⟨htu, hgh, hn, o, p, ⟨1, ho⟩, hp, hov, hv, hob, hbounds, hend⟩

end Tree

end TextGrammar
