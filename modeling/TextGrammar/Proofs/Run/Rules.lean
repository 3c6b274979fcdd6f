import TextGrammar.Proofs.Run.Full
import TextGrammar.Proofs.Run.Result
import TextGrammar.Tree.Parse

/-!
# TextGrammar.Proofs.Run.Rules — what a tree gives, from what its parts give

A document is evaluated as the row of its items, whether it has none, one or several of them
(`Tree.writeWith_ofItems`).  Rows behind one another are evaluated one after the other
(`writeRowWith_append`), and text at a seam may belong to either of them.  These are equations between
runs, which compose by the laws of a monad.

There is one rule for each kind of tree, keys with calls left out.  Each is an equivalence: a tree comes to
an end exactly if its parts do, each from the state that the part before it leaves.  Of a choice that is
one part, and a key has its value for a part.
-/

namespace TextGrammar

/-! ### Items in a row -/

instance : LawfulMonad Run := LawfulMonad.mk' Run
  (by
    intro α x
    funext noted g
    show (x noted g).bind _ = x noted g
    cases x noted g <;> rfl)
  (by
    intro α β a f
    funext noted g
    show Option.map _ (f a noted g) = f a noted g
    cases f a noted g <;> rfl)
  (by
    intro α β γ x f k
    funext noted g
    show Option.bind (Option.bind (x noted g) _) _ = Option.bind (x noted g) _
    cases x noted g with
    | none => rfl
    | some o =>
      show Option.bind (Option.map _ (f o.value noted o.grammar)) _ =
        Option.map _ (Option.bind (f o.value noted o.grammar) _)
      cases f o.value noted o.grammar with
      | none => rfl
      | some p =>
        show Option.map _ (k p.value noted p.grammar) =
          Option.map _ (Option.map _ (k p.value noted p.grammar))
        cases k p.value noted p.grammar <;> rfl)

/-- Evaluate trees from left to right and join their texts. -/
def writeRowWith (expand : Tree → Run (Chain Char)) (ts : List Tree) : Run (Chain Char) := do
  let texts ← writeAllWith expand ts
  return .join texts

section

variable (expand : Tree → Run (Chain Char))

theorem writeRowWith_nil : writeRowWith expand [] = pure ∅ := by
  rw [writeRowWith, writeAllWith, pure_bind]
  rfl

theorem writeRowWith_cons (t : Tree) (ts : List Tree) :
    writeRowWith expand (t :: ts) = do
      let text ← t.writeWith expand
      let rest ← writeRowWith expand ts
      return text ++ rest := by
  simp only [writeRowWith, writeAllWith, bind_assoc, pure_bind]
  rfl

/-- **Rows behind one another are evaluated one after the other.** -/
theorem writeRowWith_append (ts us : List Tree) :
    writeRowWith expand (ts ++ us) = do
      let text ← writeRowWith expand ts
      let rest ← writeRowWith expand us
      return text ++ rest := by
  induction ts with
  | nil =>
    rw [List.nil_append, writeRowWith_nil, pure_bind]
    exact (bind_pure (writeRowWith expand us)).symm
  | cons t ts ih =>
    rw [List.cons_append, writeRowWith_cons, ih, writeRowWith_cons]
    simp only [bind_assoc, pure_bind]
    rfl

theorem writeWith_literal (text : Text) :
    (Tree.literal text).writeWith expand = pure (.ofList text) := by
  rw [Tree.writeWith]

/-- A document is the row of its items. -/
theorem Tree.writeWith_ofItems (ts : List Tree) :
    (ofItems ts).writeWith expand = writeRowWith expand ts := by
  cases ts with
  | nil =>
    rw [writeRowWith_nil, ← Chain.ofList_nil]
    exact writeWith_literal expand []
  | cons t rest =>
    cases rest with
    | nil =>
      rw [writeRowWith_cons, writeRowWith_nil]
      simp only [pure_bind]
      exact (bind_pure _).symm
    | cons u rest =>
      show (concat (t :: u :: rest)).writeWith expand = _
      rw [Tree.writeWith]
      rfl

end

/-! ### Text, pushes and pops -/

namespace Tree

variable {g h : Grammar} {text : Text} {draws : List Event}

theorem gives_literal (t : Text) (g : Grammar) : (literal t).Gives g t [] g := by
  refine gives_iff_write.2 ⟨0, ⟨.ofList t, ∅, g⟩, ?_, rfl, rfl, rfl⟩
  rw [write, writeWith]
  rfl

/-- Laying a value on a stack evaluates it there and then, and gives no text. -/
theorem gives_push {key : Text} {value : Tree} :
    (push key value).Gives g text draws h ↔
      text = [] ∧ ∃ w g₁, value.Gives g w draws g₁ ∧ h = g₁.push key (.literal w) := by
  -- the push is noted, but it is no draw: all draws are the value's
  have hdraws : ∀ (o : Outcome (Chain Char)) (g₁ : Grammar),
      (((⟨∅, ∅, g₁⟩ : Outcome (Chain Char)).behind
        (⟨(), .ofList [.pushed key], g₁⟩ : Outcome Unit)).behind o).draws = o.draws := by
    intro o g₁
    rw [Outcome.draws_behind]
    exact List.append_nil o.draws
  rw [gives_iff_write]
  constructor
  · rintro ⟨nesting, q, hq, rfl, rfl, rfl⟩
    rw [write_eq, writeWith] at hq
    obtain ⟨o, _, ho, hrest, rfl⟩ := Run.full_bind_eq_some.1 hq
    obtain ⟨p, _, hp, hdone, rfl⟩ := Run.full_bind_eq_some.1 hrest
    rw [Run.full_push] at hp
    obtain rfl := Option.some.inj hp
    obtain rfl := Option.some.inj hdone
    rw [← write_eq] at ho
    exact ⟨rfl, o.value.toList, o.grammar,
      gives_iff_write.2 ⟨nesting, o, ho, rfl, (hdraws o _).symm, rfl⟩, rfl⟩
  · rintro ⟨rfl, w, g₁, hvalue, rfl⟩
    obtain ⟨nesting, o, ho, rfl, rfl, rfl⟩ := gives_iff_write.1 hvalue
    rw [write_eq] at ho
    refine ⟨nesting, _, ?_, rfl, hdraws o _, rfl⟩
    rw [write_eq, writeWith]
    exact Run.full_bind_eq_some.2 ⟨o, _, ho, Run.full_bind_eq_some.2
      ⟨_, _, Run.full_push _ _ _, rfl, rfl⟩, rfl⟩

theorem gives_pop {key : Text} :
    (pop key).Gives g text draws h ↔ text = [] ∧ draws = [] ∧ h = g.pop key := by
  have hwrite : ∀ nesting, ((pop key).write nesting).full g =
      some ((⟨∅, ∅, g.pop key⟩ : Outcome (Chain Char)).behind
        (⟨(), .ofList [.popped key], g.pop key⟩ : Outcome Unit)) := by
    intro nesting
    rw [write_eq, writeWith]
    exact Run.full_bind_eq_some.2 ⟨_, _, Run.full_pop _ _, rfl, rfl⟩
  rw [gives_iff_write]
  constructor
  · rintro ⟨nesting, q, hq, rfl, rfl, rfl⟩
    rw [hwrite] at hq
    obtain rfl := Option.some.inj hq
    exact ⟨rfl, rfl, rfl⟩
  · rintro ⟨rfl, rfl, rfl⟩
    exact ⟨0, _, hwrite 0, rfl, rfl, rfl⟩

/-! ### Rows -/

theorem gives_concat_nil :
    (concat []).Gives g text draws h ↔ text = [] ∧ draws = [] ∧ h = g := by
  have hwrite : ∀ nesting, ((concat []).write nesting).full g = some ⟨∅, ∅, g⟩ := by
    intro nesting
    rw [write_eq, writeWith, writeAllWith]
    rfl
  rw [gives_iff_write]
  constructor
  · rintro ⟨nesting, q, hq, rfl, rfl, rfl⟩
    rw [hwrite] at hq
    obtain rfl := Option.some.inj hq
    exact ⟨rfl, rfl, rfl⟩
  · rintro ⟨rfl, rfl, rfl⟩
    exact ⟨0, _, hwrite 0, rfl, rfl, rfl⟩

/-- **A row is evaluated from left to right.** -/
theorem gives_concat_cons {t : Tree} {ts : List Tree} :
    (concat (t :: ts)).Gives g text draws h ↔
      ∃ text₁ draws₁ g₁ text₂ draws₂, t.Gives g text₁ draws₁ g₁ ∧
        (concat ts).Gives g₁ text₂ draws₂ h ∧ text = text₁ ++ text₂ ∧ draws = draws₁ ++ draws₂ := by
  have hrow : ∀ nesting us, (concat us).write nesting = writeRowWith (expander nesting) us := by
    intro nesting us
    rw [write_eq, writeWith]
    rfl
  have hdraws : ∀ o p : Outcome (Chain Char),
      (((⟨o.value ++ p.value, ∅, p.grammar⟩ : Outcome (Chain Char)).behind p).behind o).draws =
        o.draws ++ p.draws := by
    intro o p
    simp
  constructor
  · intro hgives
    obtain ⟨nesting, q, hq, rfl, rfl, rfl⟩ := gives_iff_write.1 hgives
    rw [hrow, writeRowWith_cons] at hq
    obtain ⟨o, _, ho, hrest, rfl⟩ := Run.full_bind_eq_some.1 hq
    obtain ⟨p, _, hp, hend, rfl⟩ := Run.full_bind_eq_some.1 hrest
    obtain rfl := Option.some.inj hend
    rw [← write_eq] at ho
    rw [← hrow] at hp
    exact ⟨o.value.toList, o.draws, o.grammar, p.value.toList, p.draws,
      gives_iff_write.2 ⟨nesting, o, ho, rfl, rfl, rfl⟩,
      gives_iff_write.2 ⟨nesting, p, hp, rfl, rfl, rfl⟩, Chain.toList_append _ _, hdraws o p⟩
  · rintro ⟨_, _, _, _, _, hfirst, hsecond, rfl, rfl⟩
    obtain ⟨m, o, ho, rfl, rfl, rfl⟩ := gives_iff_write.1 hfirst
    obtain ⟨n, p, hp, rfl, rfl, rfl⟩ := gives_iff_write.1 hsecond
    -- The parts may have been granted different nestings; the row gets the larger one.
    have ho' := write_mono (Nat.le_max_left m n) ho
    have hp' := write_mono (Nat.le_max_right m n) hp
    rw [write_eq] at ho'
    rw [hrow] at hp'
    refine gives_iff_write.2 ⟨max m n, _, ?_, Chain.toList_append _ _, hdraws o p, rfl⟩
    rw [hrow, writeRowWith_cons]
    exact Run.full_bind_eq_some.2
      ⟨o, _, ho', Run.full_bind_eq_some.2 ⟨p, _, hp', rfl, rfl⟩, rfl⟩

/-! ### A choice -/

theorem full_write_select {ts : List Tree} {t : Tree}
    (ht : ts[(g.draw ts.length).1]? = some t) (nesting : Nat) :
    ((select ts).write nesting).full g = ((t.write nesting).full (g.draw ts.length).2).map fun o =>
      o.behind (⟨(), .ofList [.drawn ts.length (g.draw ts.length).1], (g.draw ts.length).2⟩ :
        Outcome Unit) := by
  rw [write_eq]
  exact full_writeWith_select ht _

/-- **A choice asks for one index**, and then it is the tree there. -/
theorem gives_select {ts : List Tree} {t : Tree} (ht : ts[(g.draw ts.length).1]? = some t) :
    (select ts).Gives g text draws h ↔
      ∃ rest, draws = .drawn ts.length (g.draw ts.length).1 :: rest ∧
        t.Gives (g.draw ts.length).2 text rest h := by
  rw [gives_iff_write]
  constructor
  · rintro ⟨nesting, q, hq, rfl, rfl, rfl⟩
    rw [full_write_select ht] at hq
    obtain ⟨o, ho, rfl⟩ := Option.map_eq_some_iff.1 hq
    refine ⟨o.draws, ?_, gives_iff_write.2 ⟨nesting, o, ho, rfl, rfl, rfl⟩⟩
    rw [Outcome.draws_behind]
    rfl
  · rintro ⟨rest, rfl, hgives⟩
    obtain ⟨nesting, o, ho, rfl, rfl, rfl⟩ := gives_iff_write.1 hgives
    have hwrite := full_write_select ht nesting
    rw [ho] at hwrite
    refine ⟨nesting, _, hwrite, rfl, ?_, rfl⟩
    rw [Outcome.draws_behind]
    rfl

/-! ### Reading a key -/

/-- **A key that the guard admits is its value**, one level deeper. -/
theorem gives_symbol_admitted {key : Text} {value : Tree} (hvalue : g.lookup key = some value)
    (hga : g.admits = true) :
    (symbol key []).Gives g text draws h ↔
      ∃ g₁, value.Gives g.enter text draws g₁ ∧ h = g₁.leave := by
  have hdraws : ∀ o : Outcome (Chain Char),
      (Outcome.ofRead key (g.depth + 1) o ⟨o.value, ∅, o.grammar.leave⟩).draws = o.draws := by
    intro o
    rw [Outcome.draws_ofRead]
    exact List.append_nil o.draws
  rw [gives_iff_write]
  constructor
  · rintro ⟨nesting, q, hq, rfl, rfl, rfl⟩
    rw [write_eq, writeWith_symbol] at hq
    obtain ⟨hnone, -⟩ | ⟨_, -, hno, -⟩ | ⟨v, o, p, hv, -, ho, hp, rfl⟩ := Run.full_read_cases hq
    · rw [hvalue] at hnone
      cases hnone
    · rw [hga] at hno
      cases hno
    · obtain rfl := Option.some.inj (hvalue.symm.trans hv)
      rw [applyAllWith] at hp
      obtain rfl := Option.some.inj hp
      -- an expansion takes one from the nesting granted, so there is none when nothing is granted
      cases nesting with
      | zero => cases ho
      | succ nesting =>
        exact ⟨o.grammar, gives_iff_write.2 ⟨nesting, o, ho, rfl, (hdraws o).symm, rfl⟩, rfl⟩
  · rintro ⟨g₁, hgives, rfl⟩
    obtain ⟨nesting, o, ho, rfl, rfl, rfl⟩ := gives_iff_write.1 hgives
    refine ⟨nesting + 1, .ofRead key (g.depth + 1) o ⟨o.value, ∅, o.grammar.leave⟩, ?_, rfl,
      hdraws o, rfl⟩
    rw [write_eq, writeWith_symbol]
    refine Run.full_read_admitted hvalue hga ho ?_
    rw [applyAllWith]
    rfl

end Tree

end TextGrammar
