import TextGrammar.Proofs.Grammar.Stacks
import TextGrammar.Proofs.Run.Result

/-!
# TextGrammar.Proofs.Grammar.Merge — rule sets in turn, and merged

Where two rule sets give a rule for the same key, loading them in turn lays two entries on its stack, and
loading their merge lays the upper one only.  So the current values are the same (`Grammar.SameTops`).
Trees without pops see no more of a stack than its top, and what they lay there is literal text, so for
them nothing else ever counts (`Grammar.SameTops.flattens`).  Rule sets without a common key lay their
entries on different stacks, in any order (`Grammar.pushAll_congr`).
-/

namespace TextGrammar

/-! ### Without pops -/

/-- Nothing in the tree takes a value from a stack. -/
def Tree.PopFree (t : Tree) : Prop := t.MentionsOnly fun m => m ≠ .pop m.key

instance (t : Tree) : Decidable t.PopFree :=
  inferInstanceAs (Decidable (∀ m ∈ t.mentions, m ≠ .pop m.key))

/-- No entry of a stack, the covered ones too, takes a value from a stack. -/
def Grammar.PopFree (g : Grammar) : Prop := ∀ key, ∀ t ∈ g.stack key, t.PopFree

/-- No rule takes a value from a stack. -/
def RuleSet.PopFree (rules : RuleSet) : Prop := ∀ e ∈ rules.trees, e.2.PopFree

instance (rules : RuleSet) : Decidable rules.PopFree :=
  inferInstanceAs (Decidable (∀ e ∈ rules.trees, e.2.PopFree))

theorem Grammar.PopFree.pushAll {g : Grammar} (hg : g.PopFree) {entries : List (Text × Tree)}
    (h : ∀ e ∈ entries, e.2.PopFree) : (g.pushAll entries).PopFree := by
  intro key t ht
  rw [stack_pushAll] at ht
  rcases List.mem_append.1 ht with ht | ht
  · obtain ⟨e, he, rfl⟩ := List.mem_map.1 (List.mem_reverse.1 ht)
    exact h e (List.mem_filter.1 he).1
  · exact hg key t ht

theorem Grammar.PopFree.load {g : Grammar} (hg : g.PopFree) {rules : RuleSet} (hr : rules.PopFree) :
    (g.load rules).PopFree := by
  rw [load_eq_pushAll]
  exact hg.pushAll hr

/-! ### States with the same current values -/

/-- The states differ in the entries below the tops of stacks only. -/
def Grammar.SameTops (g h : Grammar) : Prop := g.Related (fun _ a b => a.head? = b.head?) Eq h

theorem Grammar.SameTops.lookup {g h : Grammar} (hgh : g.SameTops h) (key : Text) :
    g.lookup key = h.lookup key := hgh.stack key

theorem Grammar.SameTops.symm {g h : Grammar} (hgh : g.SameTops h) : h.SameTops g :=
  hgh.flip (fun _ _ _ => Eq.symm) Eq.symm

/-- The states have the same current values, and none of these takes a value from a stack. -/
def Run.Topped (g h : Grammar) : Prop :=
  g.Related (fun _ a b => a.head? = b.head? ∧ ∀ t ∈ a.head?, t.PopFree) Eq h

theorem Run.Topped.same {g h : Grammar} (hgh : Topped g h) : g.SameTops h :=
  hgh.imp (fun _ _ _ htop => htop.1) id

theorem Run.Topped.of_sameTops {g h : Grammar} (hgh : g.SameTops h)
    (hfree : ∀ key t, g.lookup key = some t → t.PopFree) : Topped g h where
  stack key := ⟨hgh.stack key, hfree key⟩
  modifiers := hgh.modifiers
  source := hgh.source
  maxDepth := hgh.maxDepth
  depth := hgh.depth

/-- **Without pops the entries below the tops are not seen.** -/
theorem Run.respects_topped :
    Run.Respects (fun _ a b => a.head? = b.head? ∧ ∀ t ∈ a.head?, t.PopFree) Eq (fun _ => True) Eq
      (fun t u => t = u ∧ t.PopFree) Eq (fun m => m ≠ .pop m.key) .all where
  toObserves := Run.observes_eq
  layer := by
    rintro t u ⟨rfl, ht⟩
    exact Tree.MentionsOnly.layer ht
  lookup := by
    rintro key a b - ⟨hhead, hfree⟩
    rw [← hhead]
    cases ha : a.head? with
    | none => exact .none
    | some t => exact .some ⟨rfl, hfree t ha⟩
  modifier := by
    rintro m _ rfl name
    exact modifier_refl _
  registered _ _ := trivial
  push := by
    rintro key s _ a b - rfl -
    refine ⟨rfl, fun t ht => ?_⟩
    obtain rfl := Option.some.inj ht
    exact Tree.MentionsOnly.literal s
  -- `may` leaves no pop to consider: it is the one operation that would tell the states apart
  pop hkey _ := absurd rfl hkey
  drawn _ := trivial
  asked _ := trivial

/-! ### Texts without pops -/

namespace Run.Topped

variable {g h g₁ : Grammar} {draws : List Event}

theorem flattens (hgh : Topped g h) {s text : Text} (hs : (Tree.parse s).PopFree)
    (hg : g.Flattens s text draws g₁) :
    ∃ h₁, h.Flattens s text draws h₁ ∧ Topped g₁ h₁ := by
  obtain ⟨o, ho, rfl, rfl, rfl⟩ := Grammar.flattens_iff.1 hg
  have htree : Tree.parse s = Tree.parse s ∧ (Tree.parse s).PopFree := ⟨rfl, hs⟩
  obtain ⟨p, hp, hvalue, hevents, hend, -⟩ :=
    Run.respects_topped.simulates.yields htree ⟨hgh, trivial⟩ ho
  rw [List.forall₂_eq_eq_eq] at hevents
  have hdraws : p.draws = o.draws := by rw [Outcome.draws, Outcome.draws, hevents]
  exact ⟨p.grammar, Grammar.flattens_iff.2 ⟨p, hp, hvalue.symm, hdraws, rfl⟩, hend⟩

/-- By induction on the texts. -/
theorem flattensAll (hgh : Topped g h) {sources texts : List Text}
    (hs : ∀ s ∈ sources, (Tree.parse s).PopFree) (hg : g.FlattensAll sources texts draws g₁) :
    ∃ h₁, h.FlattensAll sources texts draws h₁ ∧ Topped g₁ h₁ := by
  induction hg generalizing h with
  | nil => exact ⟨h, .nil, hgh⟩
  | cons first _ ih =>
    obtain ⟨hsource, hsources⟩ := List.forall_mem_cons.1 hs
    obtain ⟨h', hfirst, hmid⟩ := hgh.flattens hsource first
    obtain ⟨h₁, hrest, hend⟩ := ih hmid hsources
    exact ⟨h₁, .cons hfirst hrest, hend⟩

end Run.Topped

namespace Grammar

/-! ### Loading -/

theorem valuesOf_trees_merge (A B : RuleSet) (key : Text) :
    KeyMap.valuesOf key (RuleSet.trees (A.merge B)) =
      (((B.get? key).or (A.get? key)).map fun r => Tree.parseAlternatives r.alternatives).toList := by
  rw [RuleSet.valuesOf_trees, KeyMap.get?_merge]

theorem sameTops_load_merge (g : Grammar) (A B : RuleSet) :
    ((g.load A).load B).SameTops (g.load (A.merge B)) := by
  have hlookup : ∀ key, ((g.load A).load B).lookup key = (g.load (A.merge B)).lookup key := by
    intro key
    rw [lookup_load_eq, lookup_load_eq, lookup_load_eq, KeyMap.get?_merge]
    cases B.get? key <;> rfl
  obtain ⟨s, hs⟩ := g.pushAll_eq (RuleSet.trees A ++ RuleSet.trees B)
  obtain ⟨s', hs'⟩ := g.pushAll_eq (RuleSet.trees (A.merge B))
  rw [pushAll_append, ← load_eq_pushAll, ← load_eq_pushAll] at hs
  rw [← load_eq_pushAll] at hs'
  rw [hs, hs'] at hlookup ⊢
  exact ⟨hlookup, rfl, rfl, rfl, rfl⟩

/-- Rule sets without a common key lay each key's entries in one way only. -/
theorem load_load_of_disjoint (g : Grammar) {A B : RuleSet} (h : ∀ key ∈ A.keys, key ∉ B.keys) :
    (g.load A).load B = g.load (A.merge B) ∧ (g.load A).load B = (g.load B).load A := by
  -- a key has a rule in one of the sets at most, so its stack grows the same way in any order
  have hone : ∀ key, A.get? key = none ∨ B.get? key = none := by
    intro key
    by_cases hkey : key ∈ A.keys
    · exact .inr (Option.not_isSome_iff_eq_none.1 (mt KeyMap.mem_keys_iff.2 (h key hkey)))
    · exact .inl (Option.not_isSome_iff_eq_none.1 (mt KeyMap.mem_keys_iff.2 hkey))
  simp only [load_eq_pushAll, ← pushAll_append]
  constructor
  · refine g.pushAll_congr fun key => ?_
    rw [KeyMap.valuesOf_append, valuesOf_trees_merge, RuleSet.valuesOf_trees, RuleSet.valuesOf_trees]
    rcases hone key with hnone | hnone
    · rw [hnone, Option.or_none]
      rfl
    · rw [hnone, Option.none_or]
      exact List.append_nil _
  · refine g.pushAll_congr fun key => ?_
    rw [KeyMap.valuesOf_append, KeyMap.valuesOf_append, RuleSet.valuesOf_trees,
      RuleSet.valuesOf_trees]
    rcases hone key with hnone | hnone
    · rw [hnone]
      exact (List.append_nil _).symm
    · rw [hnone]
      exact List.append_nil _

/-- **Loading two rule sets in turn is loading their merge**, as far as current values go.

After both every key has the same one.  If nothing pops, neither on the stacks nor in the rules nor in
the texts, flattening texts after the one is flattening them after the other: they come to an end
together, with the same texts after the same draws, and still with the same current values.  If the rule
sets have no key in common, the states are equal, and equal to that of loading the second one first. -/
theorem load_load_merge (g : Grammar) (A B : RuleSet) :
    (∀ key, ((g.load A).load B).lookup key = (g.load (A.merge B)).lookup key) ∧
    (g.PopFree → A.PopFree → B.PopFree →
      ∀ sources, (∀ s ∈ sources, (Tree.parse s).PopFree) → ∀ texts draws,
        (∀ h, ((g.load A).load B).FlattensAll sources texts draws h →
          ∃ h', (g.load (A.merge B)).FlattensAll sources texts draws h' ∧ h.SameTops h') ∧
        ∀ h', (g.load (A.merge B)).FlattensAll sources texts draws h' →
          ∃ h, ((g.load A).load B).FlattensAll sources texts draws h ∧ h.SameTops h') ∧
    ((∀ key ∈ A.keys, key ∉ B.keys) →
      (g.load A).load B = g.load (A.merge B) ∧ (g.load A).load B = (g.load B).load A) := by
  have hsame := g.sameTops_load_merge A B
  refine ⟨hsame.lookup, ?_, g.load_load_of_disjoint⟩
  intro hg hA hB sources hs texts draws
  have hfree : ∀ key t, ((g.load A).load B).lookup key = some t → t.PopFree := fun key t ht =>
    (hg.load hA).load hB key t (List.mem_of_head? ht)
  -- nothing is ever popped, so what lies below the tops cannot come to light
  have htopped : Run.Topped ((g.load A).load B) (g.load (A.merge B)) := .of_sameTops hsame hfree
  have htopped' : Run.Topped (g.load (A.merge B)) ((g.load A).load B) :=
    .of_sameTops hsame.symm fun key t ht => hfree key t (by rwa [hsame.lookup key])
  constructor
  · intro h hflat
    obtain ⟨h', hflat', hend⟩ := htopped.flattensAll hs hflat
    exact ⟨h', hflat', hend.same⟩
  · intro h' hflat'
    obtain ⟨h, hflat, hend⟩ := htopped'.flattensAll hs hflat'
    exact ⟨h, hflat, hend.same.symm⟩

/-- The rule for `a` in the first rule set is covered in the one state and missing in the other.  The text
changes `z`, which the rule for `b` reads on the way to `a`. -/
theorem load_load_merge_covered :
    let g := (ofSource (.table [1, 0, 1])).pushAll [(['z'], .literal ['0'])]
    let A : RuleSet := KeyMap.ofList [(['a'], .one ['x']), (['b'], .one ['#', 'z', '#', '#', 'a', '#'])]
    let B : RuleSet := KeyMap.ofList [(['a'], .many [['p'], ['q']])]
    let C : RuleSet := KeyMap.ofList [(['c'], .one ['r'])]
    let sources : List Text := ["#b#".toList, "[z:1,2]#b#".toList]
    g.PopFree ∧ A.PopFree ∧ B.PopFree ∧ (∀ s ∈ sources, (Tree.parse s).PopFree) ∧
      (∀ key ∈ A.keys, key ∉ C.keys) ∧ (g.load A).load C = (g.load C).load A ∧
      (((g.load A).load B).stack ['a']).length = 2 ∧ ((g.load (A.merge B)).stack ['a']).length = 1 ∧
      ∃ draws h h', ((g.load A).load B).FlattensAll sources [['0', 'q'], ['1', 'q']] draws h ∧
        (g.load (A.merge B)).FlattensAll sources [['0', 'q'], ['1', 'q']] draws h' ∧
        h.SameTops h' := by
  intro g A B C sources
  have hg : g.PopFree := by
    have hempty : (ofSource (.table [1, 0, 1])).PopFree := by
      intro key t ht
      cases ht
    exact hempty.pushAll fun e he => by
      obtain rfl := List.mem_singleton.1 he
      exact Tree.MentionsOnly.literal _
  have hA : A.PopFree := by decide +kernel
  have hB : B.PopFree := by decide +kernel
  have hs : ∀ s ∈ sources, (Tree.parse s).PopFree := by decide +kernel
  have hAC : ∀ key ∈ A.keys, key ∉ C.keys := by decide +kernel
  obtain ⟨o, ho, hov⟩ : ∃ o, (Run.flatten 2 "#b#".toList).full ((g.load A).load B) = some o ∧
      (o.value, ((Run.flatten 2 "[z:1,2]#b#".toList).full o.grammar).map (·.value)) =
        (['0', 'q'], some ['1', 'q']) :=
    Option.map_eq_some_iff.1 (by decide +kernel)
  obtain ⟨hvalue, hrest⟩ := Prod.mk.inj hov
  obtain ⟨p, hp, hpv⟩ := Option.map_eq_some_iff.1 hrest
  have hflat := FlattensAll.cons ⟨2, o, ho, hvalue, rfl, rfl⟩
    (.cons ⟨2, p, hp, hpv, rfl, rfl⟩ .nil)
  obtain ⟨h', hflat', hsame⟩ := ((load_load_merge g A B).2.1 hg hA hB sources hs _ _).1 _ hflat
  have hswap := ((load_load_merge g A C).2.2 hAC).2
  exact ⟨hg, hA, hB, hs, hAC, hswap, by decide +kernel, by decide +kernel, _, _, h', hflat, hflat',
    hsame⟩

end Grammar

end TextGrammar
