import TextGrammar.Proofs.Grammar.Settings
import TextGrammar.Proofs.Random.Source
import TextGrammar.Proofs.Run.Full

/-!
# TextGrammar.Proofs.Grammar.Seeded — draws from a seed

A grammar takes the answer of its source modulo the bound.  A seeded source answers below the bound, so the
grammar draws what its generator gives (`Grammar.draw_of_below?`), also over many draws
(`Generator.Draws.performAll`).  That an index is as likely as any other is said of the generator, by the
number of 64-bit numbers that stand for it (`Grammar.seeded_draws_fair`).
-/

namespace TextGrammar

variable {g g' : Generator} {h : Grammar} {bound i : Nat}

theorem Source.ask_seeded (hdraw : g.below? bound = some (i, g')) :
    (seeded g).ask bound = (i, seeded g') := by
  rw [ask, hdraw]

/-- **A grammar draws what its generator gives**: taking it modulo the bound changes nothing. -/
theorem Grammar.draw_of_below? (hsource : h.source = .seeded g) (hbound : 1 ≤ bound)
    (hdraw : g.below? bound = some (i, g')) :
    h.draw bound = (i, { h with source := .seeded g' }) := by
  rw [draw_eq (Nat.ne_of_gt hbound), hsource, Source.ask_seeded hdraw,
    Nat.mod_eq_of_lt (Generator.below?_lt hbound hdraw)]

/-- Asked for indices one after the other, a grammar answers with those that its generator gives. -/
theorem Generator.Draws.performAll {bounds indices : List Nat} (hdraws : g.Draws bounds indices g')
    (hbounds : ∀ b ∈ bounds, 1 ≤ b) (hsource : h.source = .seeded g) (nesting : Nat) :
    (Command.performAll nesting (bounds.map .draw)).full h =
      some ⟨indices.map .number, .ofList (List.zipWith .drawn bounds indices),
        { h with source := .seeded g' }⟩ := by
  induction hdraws generalizing h with
  | nil =>
    rw [← hsource]
    exact congrArg some (Outcome.ext rfl (by simp) rfl)
  | @cons g g₁ g' bound i bounds indices first _ ih =>
    obtain ⟨hbound, hbounds⟩ := List.forall_mem_cons.1 hbounds
    have hdraw := Grammar.draw_of_below? hsource hbound first
    have hrest := ih (h := { h with source := .seeded g₁ }) hbounds rfl
    -- the bounds are positive, so each command is one draw of the generator
    have hfirst : (Command.perform nesting (.draw bound)).full h =
        some ⟨.number i, .ofList [.drawn bound i], { h with source := .seeded g₁ }⟩ := by
      rw [Command.perform, Run.full_bind, Run.full_draw (Nat.ne_of_gt hbound), hdraw]
      rfl
    rw [List.map_cons, Command.performAll, Run.full_bind, hfirst, Option.bind_some, Run.full_bind, hrest]
    exact congrArg some (Outcome.ext rfl (by simp) rfl)

namespace Grammar

/-- A seed builds the grammar that the source of the seed builds. -/
theorem build_seed {before after : List Setting} (hsource : ∀ x ∈ before ++ after, x.source? = none)
    (hseed : ∀ x ∈ after, x.seed? = none) (seed clock clock' : UInt64) :
    build (before ++ .seed seed :: after) clock =
      build (before ++ .source (.ofSeed seed) :: after) clock' := by
  have hlast {α : Type} (kind : Setting → Option α) (x : Setting) :
      Setting.last kind (before ++ x :: after) =
        ((Setting.last kind after).or (kind x)).or (Setting.last kind before) := by
    rw [Setting.last_append, Setting.last_cons]
  obtain ⟨hbefore, hafter⟩ := List.forall_mem_append.1 hsource
  -- without a source among the settings the last seed decides, and `seed` is the last one
  have hleft : Setting.chosenSource (before ++ .seed seed :: after) clock = .ofSeed seed := by
    rw [Setting.chosenSource, hlast, hlast, Setting.last_eq_none hafter, Setting.last_eq_none hbefore,
      Setting.last_eq_none hseed]
    rfl
  have hright : Setting.chosenSource (before ++ .source (.ofSeed seed) :: after) clock' =
      .ofSeed seed := by
    rw [Setting.chosenSource, hlast, Setting.last_eq_none hafter]
    rfl
  refine build_congr (hleft.trans hright.symm) ?_ ?_ ?_ ?_
  · rw [hlast, hlast]
    rfl
  · rw [List.any_append, List.any_append]
    rfl
  · rw [List.filterMap_append, List.filterMap_append]
    rfl
  · rw [List.filterMap_append, List.filterMap_append]
    rfl

/-- **Draws from a seed are in range, and no index is favoured.**  For every seed and all bounds, the draws
that complete give indices below their bounds, and a grammar with the source of the seed answers with these
indices: that it takes them modulo the bound changes nothing.  A draw gives the index of the first number
that is accepted, and does not complete only if there is none.  A seed among the settings of a grammar is
like the source of the seed in its place.  And for every bound, each index below it stands for as many of the
64-bit numbers that are accepted as any other does. -/
theorem seeded_draws_fair :
    (∀ (seed : UInt64) (bounds indices : List Nat) (g : Generator),
      (∀ b ∈ bounds, 1 ≤ b) → (Generator.ofSeed seed).Draws bounds indices g →
      List.Forall₂ (· < ·) indices bounds ∧
      ∀ h : Grammar, h.source = .ofSeed seed → ∀ nesting,
        (Command.performAll nesting (bounds.map .draw)).full h =
          some ⟨indices.map .number, .ofList (List.zipWith .drawn bounds indices),
            { h with source := .seeded g }⟩) ∧
    (∀ (g : Generator) (bound : Nat),
      (∀ i g', g.below? bound = some (i, g') ↔
        ∃ n, Generator.FirstAccepted g.key bound g.taken n ∧
          i = Generator.index bound (Generator.number g.key n) ∧ g' = { g with taken := n + 1 }) ∧
      (g.below? bound = none ↔
        ∀ n, g.taken ≤ n → Generator.accepts bound (Generator.number g.key n) = false)) ∧
    (∀ before after : List Setting, (∀ x ∈ before ++ after, x.source? = none) →
      (∀ x ∈ after, x.seed? = none) → ∀ seed clock clock',
        build (before ++ .seed seed :: after) clock =
          build (before ++ .source (.ofSeed seed) :: after) clock') ∧
    ∀ bound, 1 ≤ bound → bound < UInt64.size → ∀ i < bound,
      ((Finset.range UInt64.size).filter fun v =>
        Generator.accepts bound v = true ∧ Generator.index bound v = i).card =
          Generator.share bound := by
  refine ⟨?_, fun g bound => ?_, ?_, ?_⟩
  · intro seed bounds indices g hbounds hdraws
    exact ⟨hdraws.lt hbounds, fun h hsource nesting => hdraws.performAll hbounds hsource nesting⟩
  · exact ⟨fun i g' => Generator.below?_eq_some_iff, Generator.below?_eq_none_iff⟩
  · exact fun before after hsource hseed => build_seed hsource hseed
  · exact fun bound hbound hsize i hi => Generator.card_accepted hbound hsize hi

/-- A bound just above half of all numbers, which accepts one number for each index and skips the first number
of the stream; then the smallest bound and the largest one. -/
theorem seeded_draws_fair_skipping :
    let bounds := [9223372036854775809, 1, 18446744073709551615]
    let indices := [161848253178860831, 0, 9145493819522394753]
    let g := Generator.ofSeed 2
    let settings : List Setting := [.seed 9, .english, .source (.ofSeed 2), .maxDepth 5]
    (∀ b ∈ bounds, 1 ≤ b) ∧ g.Draws bounds indices { g with taken := 4 } ∧
      List.Forall₂ (· < ·) indices bounds ∧
      build [.seed 9, .english, .seed 2, .maxDepth 5] 1 = build settings 2 ∧
      (∀ nesting, ∃ o, (Command.performAll nesting (bounds.map .draw)).full (build settings 2) = some o ∧
        o.value = indices.map .number) ∧
      ((Finset.range UInt64.size).filter fun v =>
        Generator.accepts 9223372036854775809 v = true ∧
          Generator.index 9223372036854775809 v = 9223372036854775808).card = 1 := by
  intro bounds indices g settings
  have hbounds : ∀ b ∈ bounds, 1 ≤ b := by decide
  have hbelow {bound taken i n : Nat}
      (h : Generator.seek g.key bound Generator.period taken = some (i, n)) :
      ({ g with taken := taken } : Generator).below? bound = some (i, { g with taken := n }) := by
    rw [Generator.below?, h]
    rfl
  -- the first draw skips a number: two are taken for it, and four for three draws
  have hdraws : g.Draws bounds indices { g with taken := 4 } := by
    have hfirst : Generator.seek g.key 9223372036854775809 Generator.period 0 =
        some (161848253178860831, 2) := by decide +kernel
    have hsecond : Generator.seek g.key 1 Generator.period 2 = some (0, 3) := by decide +kernel
    have hthird : Generator.seek g.key 18446744073709551615 Generator.period 3 =
        some (9145493819522394753, 4) := by decide +kernel
    exact .cons (hbelow hfirst) (.cons (hbelow hsecond) (.cons (hbelow hthird) .nil))
  obtain ⟨hdrawn, -, hseed, hfair⟩ := seeded_draws_fair
  obtain ⟨hlt, hanswers⟩ := hdrawn 2 bounds indices _ hbounds hdraws
  refine ⟨hbounds, hdraws, hlt, ?_, fun nesting => ?_, ?_⟩
  · exact hseed [.seed 9, .english] [.maxDepth 5] (by simp [Setting.source?]) (by simp [Setting.seed?]) 2 1 2
  · exact ⟨_, hanswers (build settings 2) (source_build settings 2) nesting, rfl⟩
  · exact hfair 9223372036854775809 (by decide) (by decide) 9223372036854775808 (by decide)

end Grammar

end TextGrammar
