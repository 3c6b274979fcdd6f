import TextGrammar.Proofs.Outline.Cut
import TextGrammar.Proofs.Run.Result
import TextGrammar.Proofs.Run.Rules
import TextGrammar.Proofs.Outline.Kept

/-!
# TextGrammar.Proofs.Grammar.Cut — source text may be cut at a closed point

Flattening a closed text with another behind it is the same as flattening one and then the other
(`Grammar.flattens_append`).  As computations they are equal (`Run.flatten_append`).  The trees differ:
text at the seam is one literal in the whole and two in the parts, and a part with a single item is no
row.  Neither can be told from evaluation.
-/

namespace TextGrammar

/-! ### Rows of pieces -/

/-- Text that joined the pieces behind it is evaluated as if it stood on its own. -/
theorem writeRowWith_prepend (expand : Tree → Run (Chain Char)) (f : Text → Tree) (s : Text)
    (ps : List Piece) :
    writeRowWith expand ((Piece.prepend s ps).map (Piece.toTree f)) = do
      let rest ← writeRowWith expand (ps.map (Piece.toTree f))
      return .ofList s ++ rest := by
  rcases Piece.head_cases ps with ⟨t, ps, rfl⟩ | hps
  · rw [Piece.prepend, List.map_cons, List.map_cons, writeRowWith_cons, writeRowWith_cons,
      Piece.toTree, Piece.toTree, writeWith_literal, writeWith_literal, Chain.ofList_append]
    simp only [pure_bind, bind_assoc, Chain.append_assoc]
  · rw [Piece.prepend_of_not_literal s hps]
    by_cases hs : s = []
    · rw [if_pos hs, hs, Chain.ofList_nil]
      exact (bind_pure _).symm
    · rw [if_neg hs, List.map_cons, writeRowWith_cons, Piece.toTree, writeWith_literal, pure_bind]

namespace Tree

theorem write_parse (nesting : Nat) (s : Text) :
    (parse s).write nesting =
      writeRowWith (expander nesting) ((outline s).map (Piece.toTree parse)) := by
  rw [write_eq, parse_eq, writeWith_ofItems]

/-- **The tree of a text in two parts**, the first of which is closed, is evaluated as the trees of the
parts one after the other. -/
theorem write_parse_append {a : Text} (h : a.Closed) (b : Text) (nesting : Nat) :
    (parse (a ++ b)).write nesting = do
      let text ← (parse a).write nesting
      let rest ← (parse b).write nesting
      return text ++ rest := by
  obtain ⟨done, run, ha, hab⟩ := outline_append h
  have hrun : (Open.outside run).run (Token.scan b) = Piece.prepend run.reverse (outline b) :=
    Open.run_outside (Token.wellFormed_scan b) run
  simp only [write_parse]
  rw [hab b, hrun, ha, Open.flush_eq_prepend, List.map_append, List.map_append,
    writeRowWith_append, writeRowWith_append, writeRowWith_prepend, writeRowWith_prepend,
    List.map_nil, writeRowWith_nil]
  simp only [bind_assoc, pure_bind]
  rfl

end Tree

/-- **Flattening a text in two parts**, the first of which is closed, is flattening one part and then
the other. -/
theorem Run.flatten_append {a : Text} (h : a.Closed) (b : Text) (nesting : Nat) :
    Run.flatten nesting (a ++ b) = do
      let text ← Run.flatten nesting a
      let rest ← Run.flatten nesting b
      return text ++ rest := by
  simp only [Run.flatten, Tree.resolve, Tree.write_parse_append h b nesting, bind_assoc, pure_bind,
    Chain.toList_append]

namespace Grammar

/-- **Source text may be cut at any closed point.**  Flattening the whole gives what flattening the parts
one after the other gives: their texts joined, their draws in order, the state that the second part
leaves.  So the whole comes to an end exactly if the first part does, and then the second one. -/
theorem flattens_append {a : Text} (ha : a.Closed) (b : Text) (g h : Grammar) (text : Text)
    (draws : List Event) :
    g.Flattens (a ++ b) text draws h ↔
      ∃ text₁ draws₁ g₁ text₂ draws₂,
        g.Flattens a text₁ draws₁ g₁ ∧ g₁.Flattens b text₂ draws₂ h ∧
          text = text₁ ++ text₂ ∧ draws = draws₁ ++ draws₂ := by
  have hdraws : ∀ o p : Outcome Text,
      (((⟨o.value ++ p.value, ∅, p.grammar⟩ : Outcome Text).behind p).behind o).draws =
        o.draws ++ p.draws := by
    intro o p
    simp
  constructor
  · rintro ⟨nesting, q, hq, rfl, rfl, rfl⟩
    rw [Run.flatten_append ha] at hq
    obtain ⟨o, _, ho, hrest, rfl⟩ := Run.full_bind_eq_some.1 hq
    obtain ⟨p, _, hp, hend, rfl⟩ := Run.full_bind_eq_some.1 hrest
    obtain rfl := Option.some.inj hend
    exact ⟨o.value, o.draws, o.grammar, p.value, p.draws, ⟨nesting, o, ho, rfl, rfl, rfl⟩,
      ⟨nesting, p, hp, rfl, rfl, rfl⟩, rfl, hdraws o p⟩
  · rintro ⟨_, _, _, _, _, ⟨m, o, ho, rfl, rfl, rfl⟩, ⟨n, p, hp, rfl, rfl, rfl⟩, rfl, rfl⟩
    -- The two parts may have been granted different nestings; the whole gets the larger one.
    have hfirst := Run.flatten_mono (Nat.le_max_left m n) ho
    have hsecond := Run.flatten_mono (Nat.le_max_right m n) hp
    refine ⟨max m n, _, ?_, rfl, hdraws o p, rfl⟩
    rw [Run.flatten_append ha]
    exact Run.full_bind_eq_some.2
      ⟨o, _, hfirst, Run.full_bind_eq_some.2 ⟨p, _, hsecond, rfl, rfl⟩, rfl⟩

/-- The first part draws a value of `x` and changes it.  The second one goes on in the middle of a word,
reads what the first one left, and ends inside an action, which draws as well. -/
theorem flattens_append_word :
    let g := (ofSource (.table [1])).push ['x'] (.select [.literal ['u'], .literal ['a']])
    let a : Text := ['#', 'x', '#', ' ', '[', 'x', ':', 'p', ']', 'a', 'p']
    let b : Text := ['#', 'x', '#', 'l', 'e', '[', 'x', ':', '1', ',', '2']
    a.Closed ∧ ∃ draws h, g.Flattens (a ++ b) ['a', ' ', 'a', 'p', 'p', 'l', 'e'] draws h ∧
      draws.filterMap Event.index? = [1, 0] := by
  intro g a b
  have ha : a.Closed := by decide +kernel
  obtain ⟨o, ho, hov⟩ : ∃ o, (Run.flatten 1 a).full g = some o ∧
      (o.value, o.draws.filterMap Event.index?, ((Run.flatten 1 b).full o.grammar).map
        fun p => (p.value, p.draws.filterMap Event.index?)) =
      (['a', ' ', 'a', 'p'], [1], some (['p', 'l', 'e'], [0])) :=
    Option.map_eq_some_iff.1 (by decide +kernel)
  obtain ⟨hvalue, hrest⟩ := Prod.mk.inj hov
  obtain ⟨hindices, hrest⟩ := Prod.mk.inj hrest
  obtain ⟨p, hp, hpv⟩ := Option.map_eq_some_iff.1 hrest
  obtain ⟨hvalue', hindices'⟩ := Prod.mk.inj hpv
  refine ⟨ha, o.draws ++ p.draws, p.grammar, ?_, ?_⟩
  · exact (flattens_append ha b g p.grammar _ _).2 ⟨_, o.draws, o.grammar, _, p.draws,
      ⟨1, o, ho, hvalue, rfl, rfl⟩, ⟨1, p, hp, hvalue', rfl, rfl⟩, rfl, rfl⟩
  · rw [List.filterMap_append, hindices, hindices']
    rfl

end Grammar

end TextGrammar
