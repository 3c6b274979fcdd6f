import Mathlib.Data.List.MinMax
import Mathlib.Order.Nat
import Mathlib.Tactic.ByContra
import TextGrammar.Proofs.Grammar.Guard
import TextGrammar.Proofs.Run.Nesting

/-!
# TextGrammar.Proofs.Grammar.GuardHeight — how high a guard must be

The peak of a run is the greatest depth that it goes through.  A guard at the peak or above changes
nothing, and one below it, at which the run can start, refuses a symbol (`Tree.guard_transparent`).
Both follow from one simulation between runs that differ in their limit only: it is kept while the
first run refuses nothing, and begins no expansion that the second one would refuse.
-/

namespace TextGrammar

/-! ### The peak of a run -/

/-- The greatest depth that a run goes through. -/
def Outcome.peak {α : Type} (o : Outcome α) (start : Nat) : Nat := (o.depths start).foldr max 0

theorem Outcome.le_peak {α : Type} {o : Outcome α} {start d : Nat} (h : d ∈ o.depths start) :
    d ≤ o.peak start :=
  List.le_max_of_le h (Nat.le_refl d)

theorem Outcome.peak_le {α : Type} {o : Outcome α} {start bound : Nat}
    (h : ∀ d ∈ o.depths start, d ≤ bound) : o.peak start ≤ bound :=
  List.max_le_of_forall_le _ _ h

/-! ### Runs under different limits -/

def Grammar.withLimit (g : Grammar) (limit : Option Nat) : Grammar := { g with maxDepth := limit }

theorem Grammar.withLimit_pop (g : Grammar) (limit : Option Nat) (key : Text) :
    (g.withLimit limit).pop key = (g.pop key).withLimit limit := by
  have hstack : (g.withLimit limit).stack key = g.stack key := rfl
  unfold Grammar.pop
  rw [hstack]
  split <;> rfl

/-- The states differ in their limits only.  The events ahead have no refusal, if there can be one at
all, and begin no expansion beyond the second limit. -/
structure Run.Relimited (limit limit' : Option Nat) (es : List Event) (g h : Grammar) : Prop where
  same : h = g.withLimit limit'
  maxDepth : g.maxDepth = limit
  unrefused : limit = none ∨ ∀ key, .refused key ∉ es
  fits : ∀ d, limit' = some d → ∀ e ∈ es, ∀ m ∈ e.depth?, m ≤ d

namespace Run.Relimited

variable {limit limit' : Option Nat} {e : Event} {es : List Event} {g h : Grammar}

theorem tail (hgh : Relimited limit limit' (e :: es) g h) : Relimited limit limit' es g h where
  same := hgh.same
  maxDepth := hgh.maxDepth
  unrefused := hgh.unrefused.imp id fun hu key hk => hu key (List.mem_cons_of_mem _ hk)
  fits d hd e he := hgh.fits d hd e (List.mem_cons_of_mem _ he)

theorem refuse {key : Text} (hgh : Relimited limit limit' (.refused key :: es) g h)
    (hg : g.admits = false) : h.admits = false := by
  rcases hgh.unrefused with hl | hu
  · rw [Grammar.admits, hgh.maxDepth, hl] at hg
    cases hg
  · exact absurd (by simp) (hu key)

theorem enter {key : Text}
    (hgh : Relimited limit limit' (.entered key (g.depth + 1) :: es) g h) :
    h.admits = true ∧ h.depth = g.depth ∧ Relimited limit limit' es g.enter h.enter := by
  obtain ⟨rfl, hm, hu, hf⟩ := hgh.tail
  refine ⟨?_, rfl, rfl, hm, hu, hf⟩
  cases limit' with
  | none => rfl
  | some d =>
    have hle : g.depth + 1 ≤ d :=
      hgh.fits d rfl (.entered key (g.depth + 1)) (by simp) (g.depth + 1) rfl
    show decide (g.depth < d) = true
    exact decide_eq_true hle

theorem pop (hgh : Relimited limit limit' es g h) (key : Text) :
    Relimited limit limit' es (g.pop key) (h.pop key) := by
  obtain ⟨rfl, hm, hu, hf⟩ := hgh
  refine ⟨Grammar.withLimit_pop g limit' key, ?_, hu, hf⟩
  obtain ⟨s, hs⟩ := Grammar.pop_eq g key
  rw [hs]
  exact hm

end Run.Relimited

theorem Run.simulates_relimited (limit limit' : Option Nat) :
    Run.Simulates (Run.Relimited limit limit') Eq Eq Eq (fun _ => True) .all where
  toObserves := Run.observes_eq
  layer := .of_eq
  noted _ hgh := hgh.tail
  lookup := by
    rintro key es g h - ⟨rfl, -, -, -⟩
    exact optionRel_refl (fun _ => rfl) _
  -- only the guard can tell the states apart, and the events ahead say what it lets pass
  refuse hgh hg := hgh.refuse hg
  enter hgh _ := hgh.enter
  leave := by
    rintro es g h ⟨rfl, hm, hu, hf⟩
    exact ⟨rfl, hm, hu, hf⟩
  modifier := by
    rintro name es g h ⟨rfl, -, -, -⟩
    exact modifier_refl _
  registered _ _ := trivial
  push := by
    rintro key s t es g h - rfl ⟨rfl, hm, hu, hf⟩
    exact ⟨rfl, hm, hu, hf⟩
  pop _ hgh := hgh.pop _
  draw := by
    rintro bound es g h hb hgh
    obtain ⟨rfl, hm, hu, hf⟩ := hgh.tail
    rw [Grammar.draw_eq hb, Grammar.draw_eq hb]
    exact ⟨rfl, rfl, hm, hu, hf⟩
  drawn _ _ := trivial

namespace Tree

/-- **A run that refuses nothing is the same under any limit that it does not exceed.** -/
theorem Yields.withLimit {t : Tree} {g : Grammar} {o : Outcome Text} (ho : t.Yields g o)
    {limit : Option Nat} (hu : g.maxDepth = none ∨ ∀ key, .refused key ∉ o.events)
    (hf : ∀ d, limit = some d → ∀ e ∈ o.events, ∀ m ∈ e.depth?, m ≤ d) :
    t.Yields (g.withLimit limit) { o with grammar := o.grammar.withLimit limit } := by
  have hrel : Run.Relimited g.maxDepth limit o.events g (g.withLimit limit) := ⟨rfl, rfl, hu, hf⟩
  obtain ⟨p, hp, hv, he, hg⟩ := (Run.simulates_relimited _ _).yields (rfl : t = t) hrel ho
  rw [List.forall₂_eq_eq_eq] at he
  have hop : { o with grammar := o.grammar.withLimit limit } = p :=
    Outcome.ext hv he hg.same.symm
  rwa [hop]

/-- **A guard is transparent exactly when it is high enough**: at the peak of the unguarded run or
above it changes nothing, and below it some symbol is refused. -/
theorem guard_transparent {t : Tree} {g : Grammar} {o : Outcome Text} (hg : g.maxDepth = none)
    (ho : t.Yields g o) (limit : Nat) :
    (o.peak g.depth ≤ limit → t.Yields (g.withLimit (some limit))
        { o with grammar := o.grammar.withLimit (some limit) }) ∧
      (limit < o.peak g.depth → g.depth ≤ limit →
        ∃ p, t.Yields (g.withLimit (some limit)) p ∧ ∃ key, .refused key ∈ p.events) := by
  constructor
  · intro hp
    refine ho.withLimit (.inl hg) fun d hd e he m hm => ?_
    obtain rfl := Option.some.inj hd
    have hpeak := Outcome.le_peak (o := o) (Event.mem_depths he hm g.depth)
    omega
  · intro hp hd
    obtain ⟨p, hy⟩ := exists_yields (g := g.withLimit (some limit)) rfl t
    refine ⟨p, hy, ?_⟩
    -- without a refusal the guarded run would be the unguarded one, which goes deeper
    by_contra hno
    have hun : t.Yields ((g.withLimit (some limit)).withLimit none)
        { p with grammar := p.grammar.withLimit none } :=
      hy.withLimit (.inr fun key hk => hno ⟨key, hk⟩) fun d hd => by cases hd
    have hback : (g.withLimit (some limit)).withLimit none = g := by
      show ({ g with maxDepth := none } : Grammar) = g
      rw [← hg]
    rw [hback] at hun
    have hpeak : o.peak g.depth = p.peak g.depth := by
      rw [ho.unique hun]
      rfl
    have hle : p.peak g.depth ≤ limit :=
      Outcome.peak_le (Event.depths_le (hy.balanced.guarded limit rfl) hd)
    omega

/-- A key whose value reads another key: two expansions inside one another. -/
theorem guard_transparent_chain :
    let g := ((Grammar.ofSource (.fixed 0)).push ['b'] (literal ['x'])).push ['a'] (symbol ['b'] [])
    let t : Tree := symbol ['a'] []
    ∃ o, g.maxDepth = none ∧ t.Yields g o ∧ o.value = ['x'] ∧
      t.Yields (g.withLimit (some 2)) { o with grammar := o.grammar.withLimit (some 2) } ∧
      ∃ p, t.Yields (g.withLimit (some 1)) p ∧ ∃ key, .refused key ∈ p.events := by
  intro g t
  obtain ⟨o, ho, hov⟩ : ∃ o, (t.resolve 2).full g = some o ∧ (o.value, o.peak g.depth) = (['x'], 2) :=
    Option.map_eq_some_iff.1 (by decide +kernel)
  obtain ⟨hvalue, hpeak⟩ := Prod.mk.inj hov
  have hg : g.maxDepth = none := rfl
  have hy : t.Yields g o := ⟨2, ho⟩
  have hhigh := (guard_transparent hg hy 2).1 (by omega)
  have hlow := (guard_transparent hg hy 1).2 (by omega) (by decide)
  exact ⟨o, hg, hy, hvalue, hhigh, hlow⟩

end Tree

end TextGrammar
