import Mathlib.Data.List.MinMax
import TextGrammar.Proofs.Run.Depth
import TextGrammar.Proofs.Run.Move
import TextGrammar.Proofs.Run.Result

/-!
# TextGrammar.Proofs.Grammar.Rank — rules that do not recur need no guard

If keys have ranks, and what stands on the stack of a key mentions keys of smaller rank only, then
expansions inside one another go down in rank.  The stacks change on the way, but what an evaluation
lays there is literal text, which mentions nothing, and a pop uncovers what has been there before
(`Grammar.Ranked.apply`).  So the ranks still fit in the state behind, and the rank of the keys that a
tree mentions bounds how deep it goes (`Tree.write_endsWithin`).

It is enough to look at the keys that are read.  `counts` says which mentions are looked at; those that
read a key must be among them.
-/

namespace TextGrammar

/-! ### Ranks -/

variable {counts : Mention → Bool} {rank : Text → Nat}

/-- What the tree mentions, as far as it counts, has a rank below `n`. -/
def Tree.Below (counts : Mention → Bool) (rank : Text → Nat) (n : Nat) (t : Tree) : Prop :=
  t.MentionsOnly fun m => counts m = true → rank m.key < n

instance (n : Nat) (t : Tree) : Decidable (t.Below counts rank n) :=
  inferInstanceAs (Decidable (∀ m ∈ t.mentions, counts m = true → rank m.key < n))

/-- One more than the largest rank of a key that the tree mentions, as far as it counts; zero if there
is none. -/
def Tree.height (counts : Mention → Bool) (rank : Text → Nat) (t : Tree) : Nat :=
  ((t.mentions.filter counts).map fun m => rank m.key + 1).foldr max 0

/-- An entry on the stack of a key, the covered ones too, mentions keys of smaller rank only. -/
def Grammar.Ranked (counts : Mention → Bool) (rank : Text → Nat) (g : Grammar) : Prop :=
  ∀ key, ∀ t ∈ g.stack key, t.Below counts rank (rank key)

theorem Tree.below_height (counts : Mention → Bool) (rank : Text → Nat) (t : Tree) :
    t.Below counts rank (t.height counts rank) := by
  intro m hm hcounts
  have hmem : rank m.key + 1 ∈ (t.mentions.filter counts).map fun m => rank m.key + 1 :=
    List.mem_map_of_mem (List.mem_filter.2 ⟨hm, hcounts⟩)
  exact List.le_max_of_le' 0 hmem (Nat.le_refl _)

theorem Tree.Below.mono {m n : Nat} (hmn : m ≤ n) {t : Tree} (ht : t.Below counts rank m) :
    t.Below counts rank n := by
  intro a ha hcounts
  have hlt := ht a ha hcounts
  omega

/-- **A move keeps the ranks**, if what it lays on a stack is below the rank of the key. -/
theorem Grammar.Ranked.apply {g : Grammar} (hg : g.Ranked counts rank) {m : Move}
    (hm : ∀ key value, m = .push key value → value.Below counts rank (rank key)) :
    (m.apply g).Ranked counts rank := by
  intro key t ht
  have hafter : t ∈ (g.after [m]).stack key := ht
  rcases Grammar.mem_stack_after hafter with ht | ht
  · exact hg key t ht
  · exact hm key t (List.mem_singleton.1 ht).symm

theorem Grammar.Ranked.push {g : Grammar} (hg : g.Ranked counts rank) {key : Text} {value : Tree}
    (hvalue : value.Below counts rank (rank key)) : (g.push key value).Ranked counts rank := by
  have hlaid : ∀ k v, Move.push key value = .push k v → v.Below counts rank (rank k) := by
    rintro _ _ ⟨⟩
    exact hvalue
  exact hg.apply hlaid

/-! ### Going down in rank -/

/-- The ranks fit, there is no guard, and expansions nest as deep as said. -/
structure Grammar.Descends (counts : Mention → Bool) (rank : Text → Nat) (depth : Nat) (g : Grammar) :
    Prop where
  ranked : g.Ranked counts rank
  unguarded : g.maxDepth = none
  depth : g.depth = depth

namespace Grammar.Descends

variable {depth : Nat} {g : Grammar}

theorem admits (hg : g.Descends counts rank depth) : g.admits = true := by
  unfold Grammar.admits
  rw [hg.unguarded]

theorem lookup (hg : g.Descends counts rank depth) {key : Text} {v : Tree}
    (hv : g.lookup key = some v) : v.Below counts rank (rank key) :=
  hg.ranked key v (List.mem_of_head? hv)

theorem enter (hg : g.Descends counts rank depth) : g.enter.Descends counts rank (depth + 1) :=
  ⟨hg.ranked, hg.unguarded, congrArg (· + 1) hg.depth⟩

theorem leave (hg : g.Descends counts rank (depth + 1)) : g.leave.Descends counts rank depth :=
  ⟨hg.ranked, hg.unguarded, congrArg (· - 1) hg.depth⟩

theorem push (hg : g.Descends counts rank depth) (key text : Text) :
    (g.push key (.literal text)).Descends counts rank depth where
  ranked := hg.ranked.push (Tree.MentionsOnly.literal text)
  unguarded := hg.unguarded
  depth := hg.depth

theorem pop (hg : g.Descends counts rank depth) (key : Text) :
    (g.pop key).Descends counts rank depth := by
  have hranked : (g.pop key).Ranked counts rank := hg.ranked.apply (m := .pop key) (by simp)
  obtain ⟨s, hs⟩ := g.pop_eq key
  rw [hs] at hranked ⊢
  exact ⟨hranked, hg.unguarded, hg.depth⟩

theorem draw (hg : g.Descends counts rank depth) {bound : Nat} (hb : bound ≠ 0) :
    (g.draw bound).2.Descends counts rank depth := by
  have hranked : (g.draw bound).2.Ranked counts rank := hg.ranked.apply (m := .draw bound) (by simp)
  rw [Grammar.draw_eq hb] at hranked ⊢
  exact ⟨hranked, hg.unguarded, hg.depth⟩

end Grammar.Descends

namespace Run

/-- From a state in which the ranks fit, the run comes to an end in such a state, and no expansion in it
begins deeper than `bound`. -/
def EndsWithin (counts : Mention → Bool) (rank : Text → Nat) (depth bound : Nat) {α : Type}
    (x : Run α) : Prop :=
  ∀ ⦃g⦄, g.Descends counts rank depth → ∃ o, x.full g = some o ∧
    o.grammar.Descends counts rank depth ∧ ∀ e ∈ o.events, ∀ d ∈ e.depth?, d ≤ bound

variable {depth bound n : Nat} {expand : Tree → Run (Chain Char)}

theorem depth_le_of_still {e : Event} (he : e.depth? = none) :
    ∀ e' ∈ [e], ∀ d ∈ e'.depth?, d ≤ bound := by
  intro e' he' d hd
  obtain rfl := List.mem_singleton.1 he'
  rw [he] at hd
  cases hd

namespace EndsWithin

theorem pure {α : Type} (a : α) : (pure a : Run α).EndsWithin counts rank depth bound := by
  intro g hg
  refine ⟨_, full_pure a g, hg, ?_⟩
  rintro e ⟨⟩

theorem bind {α β : Type} {x : Run α} {f : α → Run β} (hx : x.EndsWithin counts rank depth bound)
    (hf : ∀ a, x.MayYield a → (f a).EndsWithin counts rank depth bound) :
    (x >>= f).EndsWithin counts rank depth bound := by
  intro g hg
  obtain ⟨o, ho, hgo, hle⟩ := hx hg
  obtain ⟨p, hp, hgp, hle'⟩ := hf o.value ⟨g, o, ho, rfl⟩ hgo
  refine ⟨p.behind o, full_bind_eq_some.2 ⟨o, p, ho, hp, rfl⟩, hgp, ?_⟩
  rw [Outcome.events_behind]
  exact List.forall_mem_append.2 ⟨hle, hle'⟩

/-- The value of a key of rank `r` is expanded one level deeper, and what it mentions is below `r`. -/
theorem read (hbound : depth + n ≤ bound)
    (he : ∀ r < n, ∀ v, v.Below counts rank r → (expand v).EndsWithin counts rank (depth + 1) bound)
    {key : Text} (hkey : rank key < n) {f : Chain Char → Run (Chain Char)}
    (hf : ∀ a, (f a).EndsWithin counts rank depth bound) :
    (Run.read key expand f).EndsWithin counts rank depth bound := by
  intro g hg
  cases hv : g.lookup key with
  | none => exact ⟨_, full_read_undefined hv, hg, depth_le_of_still rfl⟩
  | some v =>
    obtain ⟨o, ho, hgo, hle⟩ := he (rank key) hkey v (hg.lookup hv) hg.enter
    obtain ⟨p, hp, hgp, hle'⟩ := hf o.value hgo.leave
    refine ⟨_, full_read_admitted hv hg.admits ho hp, hgp, ?_⟩
    rw [Outcome.events_ofRead]
    refine List.forall_mem_cons.2 ⟨?_, List.forall_mem_append.2 ⟨hle, ?_⟩⟩
    · rintro d ⟨⟩
      rw [hg.depth]
      omega
    · exact List.forall_mem_cons.2 ⟨by rintro d ⟨⟩, hle'⟩

theorem modify (name : Text) (a : Chain Char) {x : Run (List (Chain Char))}
    (hx : x.EndsWithin counts rank depth bound) :
    (Run.modify name a x).EndsWithin counts rank depth bound := by
  intro g hg
  cases hf : g.modifiers.get? name with
  | none =>
    refine ⟨_, full_modify_unregistered hf, hg, ?_⟩
    rintro e ⟨⟩
  | some f =>
    obtain ⟨o, ho, hgo, hle⟩ := hx hg
    exact ⟨_, full_modify_registered hf ho, hgo, hle⟩

theorem draw (b : Nat) : (Run.draw b).EndsWithin counts rank depth bound := by
  intro g hg
  by_cases hb : b = 0
  · subst hb
    refine ⟨_, full_draw_zero g, hg, ?_⟩
    rintro e ⟨⟩
  · exact ⟨_, full_draw hb g, hg.draw hb, depth_le_of_still rfl⟩

end EndsWithin

theorem invariant_endsWithin (hreads : ∀ key, counts (.read key) = true)
    (hbound : depth + n ≤ bound)
    (he : ∀ r < n, ∀ v, v.Below counts rank r →
      (expand v).EndsWithin counts rank (depth + 1) bound) :
    InvariantOn (fun m => counts m = true → rank m.key < n) (EndsWithin counts rank depth bound)
      expand where
  pure := .pure
  bind := .bind
  read hkey hf := .read hbound he (hkey (hreads _)) hf
  modify := .modify
  push text _ g hg := ⟨_, full_push _ _ g, hg.push _ text, depth_le_of_still rfl⟩
  pop _ g hg := ⟨_, full_pop _ g, hg.pop _, depth_le_of_still rfl⟩
  draw := .draw

end Run

/-! ### Evaluation -/

namespace Tree

/-- **Evaluation goes down in rank**, by induction on the rank below which everything is that the tree
mentions. -/
theorem write_endsWithin (hreads : ∀ key, counts (.read key) = true) {n depth bound : Nat}
    (hbound : depth + n ≤ bound) {t : Tree} (ht : t.Below counts rank n) :
    (t.write n).EndsWithin counts rank depth bound := by
  rw [write_eq]
  induction n generalizing depth t with
  | zero =>
    refine (Run.invariant_endsWithin hreads hbound ?_).writeWith ht
    -- below rank zero nothing is read, so the nesting granted is enough
    intro r hr
    exact absurd hr (Nat.not_lt_zero r)
  | succ n ih =>
    refine (Run.invariant_endsWithin hreads hbound ?_).writeWith ht
    intro r hr v hv
    rw [expander, write_eq]
    exact ih (by omega) (.mono (by omega) hv)

/-- The nesting that is needed is at most the height. -/
theorem exists_resolve_of_ranked (hreads : ∀ key, counts (.read key) = true) {g : Grammar}
    (hg : g.Ranked counts rank) (hm : g.maxDepth = none) (t : Tree) :
    ∃ o, (t.resolve (t.height counts rank)).full g = some o ∧
      o.grammar.Descends counts rank g.depth ∧
      ∀ depth ∈ o.depths g.depth, depth ≤ g.depth + t.height counts rank := by
  have hbelow := t.below_height counts rank
  obtain ⟨p, hp, hend, hle⟩ := write_endsWithin hreads (Nat.le_refl _) hbelow ⟨hg, hm, rfl⟩
  refine ⟨{ p with value := p.value.toList }, ?_, hend, Event.depths_le hle (Nat.le_add_right _ _)⟩
  rw [full_resolve, hp]
  rfl

end Tree

/-- By induction on the texts. -/
theorem Grammar.exists_flattensAll_of_ranked (hreads : ∀ key, counts (.read key) = true) {g : Grammar}
    (hg : g.Ranked counts rank) (hm : g.maxDepth = none) (sources : List Text) :
    ∃ texts draws h, g.FlattensAll sources texts draws h := by
  induction sources generalizing g with
  | nil => exact ⟨[], [], g, .nil⟩
  | cons s sources ih =>
    obtain ⟨o, ho, hend, -⟩ := (Tree.parse s).exists_resolve_of_ranked hreads hg hm
    obtain ⟨texts, draws, h, hrest⟩ := ih hend.ranked hend.unguarded
    exact ⟨_, _, h, .cons ⟨_, o, ho, rfl, rfl, rfl⟩ hrest⟩

/-- **Rules that do not recur need no guard.**  If every entry on the stack of a key mentions keys of
smaller rank only, then without a guard every tree comes to an end.  The nesting that it needs, and so the
depth that it reaches below the start, is at most one more than the largest rank of a key that it
mentions.  The ranks still fit in the state behind, so flattening any texts from there comes to an end
too. -/
theorem Tree.resolve_ranked (hreads : ∀ key, counts (.read key) = true) {g : Grammar}
    (hg : g.Ranked counts rank) (hm : g.maxDepth = none) (t : Tree) :
    ∃ o, (t.resolve (t.height counts rank)).full g = some o ∧ o.grammar.Ranked counts rank ∧
      (∀ depth ∈ o.depths g.depth, depth ≤ g.depth + t.height counts rank) ∧
      ∀ sources, ∃ texts draws h, o.grammar.FlattensAll sources texts draws h := by
  obtain ⟨o, ho, hend, hdepths⟩ := t.exists_resolve_of_ranked hreads hg hm
  exact ⟨o, ho, hend.ranked, hdepths,
    Grammar.exists_flattensAll_of_ranked hreads hend.ranked hend.unguarded⟩

/-- The value of `a` reads `b` with a parameter that reads `c`, and lays a literal on `b`.  That of `c`
takes one from `a`, which does not count: only reads do.  The bound is met. -/
theorem Tree.resolve_ranked_reads :
    let counts (m : Mention) : Bool := !m.isChange
    let rank (key : Text) : Nat := if key = ['a'] then 2 else if key = ['b'] then 1 else 0
    let start := (Grammar.ofSource (.fixed 1)).register ['f'] fun s ps => s ++ ps.flatten
    let c : Tree := concat [pop ['a'], literal ['z']]
    let a : Tree := concat [symbol ['b'] [.mk ['f'] [symbol ['c'] []]], push ['b'] (symbol ['c'] [])]
    let g := ((start.push ['c'] c).push ['b'] (symbol ['c'] [])).push ['a'] a
    let t : Tree := concat [symbol ['a'] [], select [literal [], symbol ['b'] []]]
    (∀ key, counts (.read key) = true) ∧ g.Ranked counts rank ∧ g.maxDepth = none ∧
      t.height counts rank = 3 ∧ ∃ o, (t.resolve 3).full g = some o ∧ o.value = ['z', 'z', 'z'] ∧
        o.grammar.Ranked counts rank ∧ 3 ∈ o.depths g.depth ∧
        ∀ depth ∈ o.depths g.depth, depth ≤ 3 := by
  intro counts rank start c a g t
  have hreads : ∀ key, counts (.read key) = true := fun _ => rfl
  have hg : g.Ranked counts rank := by
    have hstart : start.Ranked counts rank := by
      intro key u hu
      cases hu
    exact ((hstart.push (by decide)).push (by decide)).push (by decide)
  have hheight : t.height counts rank = 3 := by decide
  obtain ⟨o, ho, hranked, hdepths, -⟩ := resolve_ranked hreads hg rfl t
  rw [hheight] at ho hdepths
  obtain ⟨p, hp, hpv⟩ : ∃ p, (t.resolve 3).full g = some p ∧
      (p.value, p.depths 0) =
        (['z', 'z', 'z'], [0, 1, 2, 3, 3, 2, 1, 2, 2, 1, 2, 2, 1, 1, 0, 0, 1, 0]) :=
    Option.map_eq_some_iff.1 (by decide +kernel)
  obtain rfl := Option.some.inj (hp.symm.trans ho)
  obtain ⟨hvalue, hlist⟩ := Prod.mk.inj hpv
  have hdeepest : 3 ∈ p.depths g.depth := by
    show 3 ∈ p.depths 0
    rw [hlist]
    decide
  have hzero : g.depth + 3 = 3 := rfl
  rw [hzero] at hdepths
  exact ⟨hreads, hg, rfl, hheight, p, hp, hvalue, hranked, hdeepest, hdepths⟩

end TextGrammar
