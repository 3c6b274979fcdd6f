import Mathlib.Data.Set.Defs
import TextGrammar.Proofs.Run.Nesting

/-!
# TextGrammar.Proofs.Grammar.Reach — the keys that an evaluation can reach

A set of keys is closed in a state if the entries on the stacks of its keys mention keys of the set
only (`Grammar.ClosedOn`).  Entries below the top count, since a pop can uncover them.  A tree that
mentions such keys only never leaves the set: what an evaluation lays on a stack is literal text, which
mentions nothing, so the set stays closed.  Hence states that agree on the set are not told apart, and
the stacks of all other keys are left alone (`Tree.resolve_agreeOn`).
-/

namespace TextGrammar

/-! ### Trees within a set of keys -/

/-- Every key in the tree is in the set. -/
def Tree.Within (K : Set Text) (t : Tree) : Prop := ∀ m ∈ t.mentions, m.key ∈ K

namespace Tree

variable {K : Set Text}

theorem within_literal (text : Text) : (literal text).Within K := MentionsOnly.literal text

/-- What stands below the root of a tree within the set is within it too. -/
theorem Within.layer {heed : Heed} {t : Tree} (h : t.Within K) :
    t.Layer (fun t u => t = u ∧ t.Within K) Eq (fun m => m.key ∈ K) heed t := MentionsOnly.layer h

end Tree

/-! ### States that agree -/

/-- Every entry on the stack of a key in the set, the covered ones too, is within the set. -/
def Grammar.ClosedOn (K : Set Text) (g : Grammar) : Prop :=
  ∀ key ∈ K, ∀ t ∈ g.stack key, t.Within K

/-- The states differ in the stacks of keys outside the set only. -/
def Grammar.AgreeOn (K : Set Text) (g h : Grammar) : Prop :=
  g.Related (fun key a b => key ∈ K → a = b) Eq h

namespace Grammar

variable {K : Set Text} {g h : Grammar}

theorem AgreeOn.symm (hgh : g.AgreeOn K h) : h.AgreeOn K g :=
  hgh.flip (fun _ _ _ hst hkey => (hst hkey).symm) Eq.symm

theorem AgreeOn.closedOn (hgh : g.AgreeOn K h) (hg : g.ClosedOn K) : h.ClosedOn K := by
  intro key hk t ht
  rw [← hgh.stack key hk] at ht
  exact hg key hk t ht

theorem AgreeOn.push (hgh : g.AgreeOn K h) (key : Text) (value : Tree) :
    (g.push key value).AgreeOn K (h.push key value) :=
  Related.push hgh fun _ _ hst hkey => congrArg (value :: ·) (hst hkey)

theorem ClosedOn.push (hg : g.ClosedOn K) (key : Text) {value : Tree} (hv : value.Within K) :
    (g.push key value).ClosedOn K := by
  intro k hk t ht
  rw [stack_push] at ht
  split_ifs at ht with hkey
  · subst hkey
    rcases List.mem_cons.1 ht with rfl | ht
    · exact hv
    · exact hg k hk t ht
  · exact hg k hk t ht

end Grammar

/-! ### Runs side by side -/

/-- A closed set on which two states agree: its keys have the same entries on both sides, all within the
set.  Any other key has the stacks that it had at the start. -/
def Run.Confined (K : Set Text) (g₀ h₀ : Grammar) (key : Text) (a b : List Tree) : Prop :=
  (key ∈ K → a = b ∧ ∀ t ∈ a, t.Within K) ∧ (key ∉ K → a = g₀.stack key ∧ b = h₀.stack key)

namespace Run.Confined

variable {K : Set Text} {g₀ h₀ : Grammar} {key : Text} {a b : List Tree}

/-- What is said of a key in the set. -/
theorem of_mem (hkey : key ∈ K) (hst : a = b ∧ ∀ t ∈ a, t.Within K) : Confined K g₀ h₀ key a b :=
  ⟨fun _ => hst, fun hout => absurd hkey hout⟩

theorem start {g h : Grammar} (hg : g.ClosedOn K) (hgh : g.AgreeOn K h) :
    g.Related (Confined K g h) Eq h where
  stack key := ⟨fun hkey => ⟨hgh.stack key hkey, hg key hkey⟩, fun _ => ⟨rfl, rfl⟩⟩
  modifiers := hgh.modifiers
  source := hgh.source
  maxDepth := hgh.maxDepth
  depth := hgh.depth

end Run.Confined

/-- Evaluation lays literal texts on stacks of the set and uncovers what was there before; so it never
leaves the set. -/
theorem Run.respects_confined (K : Set Text) (g₀ h₀ : Grammar) :
    Run.Respects (Run.Confined K g₀ h₀) Eq (fun _ => True) Eq (fun t u => t = u ∧ t.Within K) Eq
      (fun m => m.key ∈ K) .all where
  toObserves := Run.observes_eq
  layer := by
    rintro t u ⟨rfl, ht⟩
    exact ht.layer
  lookup := by
    intro key a b hkey hst
    obtain ⟨rfl, hclosed⟩ := hst.1 hkey
    cases a with
    | nil => exact .none
    | cons t rest => exact .some ⟨rfl, hclosed t List.mem_cons_self⟩
  modifier := by
    rintro m _ rfl name
    exact modifier_refl _
  registered _ _ := trivial
  push := by
    rintro key s _ a b hkey rfl hst
    obtain ⟨rfl, hclosed⟩ := hst.1 hkey
    exact .of_mem hkey ⟨rfl, List.forall_mem_cons.2 ⟨Tree.within_literal s, hclosed⟩⟩
  -- the tail of a closed stack is closed, so a pop uncovers nothing from outside the set
  pop := by
    intro key a b hkey hst
    obtain ⟨rfl, hclosed⟩ := hst.1 hkey
    exact ⟨rfl, .of_mem hkey ⟨rfl, fun t ht => hclosed t (List.mem_of_mem_tail ht)⟩⟩
  drawn _ := trivial
  asked _ := trivial

namespace Tree

variable {K : Set Text}

theorem Within.yields {t : Tree} (ht : t.Within K) {g h : Grammar} (hg : g.ClosedOn K)
    (hgh : g.AgreeOn K h) {o : Outcome Text} (ho : t.Yields g o) :
    ∃ p, t.Yields h p ∧ o.value = p.value ∧ o.events = p.events ∧
      o.grammar.Related (Run.Confined K g h) Eq p.grammar := by
  obtain ⟨p, hp, hv, he, hend, -⟩ := (Run.respects_confined K g h).simulates.yields
    (⟨rfl, ht⟩ : t = t ∧ t.Within K) ⟨Run.Confined.start hg hgh, trivial⟩ ho
  rw [List.forall₂_eq_eq_eq] at he
  exact ⟨p, hp, hv, he, hend⟩

/-- **Evaluation depends only on the keys it can reach.**  From states that agree on a closed set of
keys, a tree within the set comes to an end on both sides or on neither; then it gives the same text
after the same draws, leaves the states in agreement, and no other stack changes on either side. -/
theorem resolve_agreeOn {t : Tree} (ht : t.Within K) {g h : Grammar} (hg : g.ClosedOn K)
    (hgh : g.AgreeOn K h) :
    ((∃ o, t.Yields g o) ↔ ∃ p, t.Yields h p) ∧
      ∀ o p, t.Yields g o → t.Yields h p →
        o.value = p.value ∧ o.bounds = p.bounds ∧ o.events = p.events ∧
          o.grammar.AgreeOn K p.grammar ∧
          ∀ key ∉ K, o.grammar.stack key = g.stack key ∧ p.grammar.stack key = h.stack key := by
  refine yields_together (fun o ho => ?_) fun p hp => ?_
  · obtain ⟨p, hp, hv, he, hend⟩ := ht.yields hg hgh ho
    have hbounds : o.bounds = p.bounds := by rw [Outcome.bounds, Outcome.bounds, he]
    exact ⟨p, hp, hv, hbounds, he, hend.imp (fun _ _ _ hst hkey => (hst.1 hkey).1) id,
      fun key hkey => (hend.stack key).2 hkey⟩
  · obtain ⟨o, ho, -⟩ := ht.yields (hgh.closedOn hg) hgh.symm hp
    exact ⟨o, ho⟩

/-- A state with a modifier and a value of `z`. -/
def reachBase (z : Tree) : Grammar :=
  ((Grammar.ofSource (.fixed 1)).register ['f'] fun s _ => s ++ ['!']).push ['z'] z

/-- On top of it a value of `b`, and one entry under another on the stack of `a`. -/
def reachState (z : Tree) : Grammar :=
  (((reachBase z).push ['b'] (literal ['x'])).push ['a']
    (select [literal ['y'], symbol ['b'] []])).push ['a'] (push ['b'] (literal ['w']))

/-- Whatever `z` stands for: the value of `a` changes `b`, a pop uncovers the choice below it. -/
theorem resolve_agreeOn_uncovered :
    let K : Set Text := { key | key = ['a'] ∨ key = ['b'] }
    let g := reachState (literal ['1'])
    let h := reachState (push ['a'] (symbol ['z'] []))
    let t : Tree := concat [symbol ['a'] [], pop ['a'], symbol ['a'] [.mk ['f'] [pop ['b']]]]
    t.Within K ∧ g.ClosedOn K ∧ g.AgreeOn K h ∧
      ∃ o p, t.Yields g o ∧ t.Yields h p ∧ o.value = ['w', '!'] ∧
        o.value = p.value ∧ o.bounds = p.bounds ∧ o.grammar.AgreeOn K p.grammar ∧
        p.grammar.stack ['z'] = h.stack ['z'] := by
  intro K g h t
  have ha : ['a'] ∈ K := .inl rfl
  have hb : ['b'] ∈ K := .inr rfl
  have hz : ['z'] ∉ K := by
    rintro (hz | hz) <;> cases hz
  have ht : t.Within K := by
    intro m hm
    simp [t, mentions, Call.mentions] at hm
    rcases hm with rfl | rfl | rfl | rfl
    · exact ha
    · exact ha
    · exact ha
    · exact hb
  have hne : ∀ k ∈ K, k ≠ ['z'] := fun k hk hkz => hz (hkz ▸ hk)
  -- covered entries count too: the pop in `t` uncovers one
  have hg : g.ClosedOn K := by
    have hbase : (reachBase (literal ['1'])).ClosedOn K := by
      intro k hk u hu
      rw [reachBase, Grammar.stack_push, if_neg (hne k hk)] at hu
      cases hu
    refine ((hbase.push ['b'] (within_literal _)).push ['a'] ?_).push ['a'] ?_
    · intro m hm
      simp [mentions, mentionsOfCalls] at hm
      exact hm ▸ hb
    · intro m hm
      simp [mentions] at hm
      exact hm ▸ hb
  have hgh : g.AgreeOn K h := by
    have hbase : (reachBase (literal ['1'])).AgreeOn K
        (reachBase (push ['a'] (symbol ['z'] []))) := by
      refine ⟨fun k hk => ?_, rfl, rfl, rfl, rfl⟩
      rw [reachBase, reachBase, Grammar.stack_push, Grammar.stack_push, if_neg (hne k hk),
        if_neg (hne k hk)]
    exact ((hbase.push _ _).push _ _).push _ _
  obtain ⟨o, ho, hov⟩ : ∃ o, (t.resolve 2).full g = some o ∧ o.value = ['w', '!'] :=
    Option.map_eq_some_iff.1 (by decide +kernel)
  obtain ⟨p, hp⟩ := (resolve_agreeOn ht hg hgh).1.1 ⟨o, 2, ho⟩
  obtain ⟨hv, hbounds, -, hend, houtside⟩ := (resolve_agreeOn ht hg hgh).2 o p ⟨2, ho⟩ hp
  exact ⟨ht, hg, hgh, o, p, ⟨2, ho⟩, hp, hov, hv, hbounds, hend, (houtside ['z'] hz).2⟩

end Tree

end TextGrammar
