import TextGrammar.Proofs.Run.Effect

/-!
# TextGrammar.Proofs.Run.Depth — how deep expansions nest

The events of a run say how deep expansions nest at any point of it: `Event.depthBehind` is the depth
behind one event, and `Outcome.depths` lists the depths that a run goes through.  Expansions begin and
end in pairs (`Run.Balanced`), so a run ends at the depth at which it started, and under a guard no
expansion begins beyond the limit.
-/

namespace TextGrammar

namespace Event

/-- The depth behind an event, from the depth in front of it. -/
def depthBehind (depth : Nat) : Event → Nat
  | entered _ d => d
  | expanded _ _ => depth - 1
  | _ => depth

/-- Every expansion among the events begins one level deeper than where the events before it lead. -/
def Stepwise : Nat → List Event → Prop
  | _, [] => True
  | depth, e :: es => (∀ d ∈ e.depth?, d = depth + 1) ∧ Stepwise (e.depthBehind depth) es

theorem stepwise_append {depth : Nat} {es fs : List Event} :
    Stepwise depth (es ++ fs) ↔ Stepwise depth es ∧ Stepwise (es.foldl depthBehind depth) fs := by
  induction es generalizing depth with
  | nil => simp [Stepwise]
  | cons e es ih => simp [Stepwise, ih, and_assoc]

end Event

/-- The depths that a run goes through, from its start on. -/
def Outcome.depths {α : Type} (o : Outcome α) (start : Nat) : List Nat :=
  o.events.scanl Event.depthBehind start

namespace Event

theorem start_mem_depths (es : List Event) (start : Nat) : start ∈ es.scanl depthBehind start := by
  cases es <;> simp

/-- A depth at which an expansion begins is gone through. -/
theorem mem_depths {e : Event} {es : List Event} (he : e ∈ es) {d : Nat} (hd : d ∈ e.depth?)
    (start : Nat) : d ∈ es.scanl depthBehind start := by
  induction es generalizing start with
  | nil => cases he
  | cons e' es ih =>
    rw [List.scanl_cons]
    rcases List.mem_cons.1 he with rfl | he
    · have hbehind : e.depthBehind start = d := by
        cases e <;> cases hd
        rfl
      exact List.mem_cons_of_mem _ (hbehind ▸ start_mem_depths es _)
    · exact List.mem_cons_of_mem _ (ih he _)

/-- No depth is greater than all those at which expansions begin, and the start. -/
theorem depths_le {bound : Nat} {es : List Event} (h : ∀ e ∈ es, ∀ d ∈ e.depth?, d ≤ bound)
    {start : Nat} (hs : start ≤ bound) : ∀ d ∈ es.scanl depthBehind start, d ≤ bound := by
  induction es generalizing start with
  | nil => simpa using hs
  | cons e es ih =>
    obtain ⟨he, hes⟩ := List.forall_mem_cons.1 h
    have hnext : e.depthBehind start ≤ bound := by
      cases e with
      | entered key d => exact he d rfl
      | expanded key text =>
        show start - 1 ≤ bound
        omega
      | _ => exact hs
    rw [List.scanl_cons]
    exact List.forall_mem_cons.2 ⟨hs, ih hes hnext⟩

end Event

/-! ### Expansions in pairs -/

/-- The run keeps the limit, and ends as deep as it starts; in between, expansions begin one level
deeper than what is open, and none begins beyond the limit. -/
structure Run.Balanced (g : Grammar) (es : List Event) (h : Grammar) : Prop where
  maxDepth : h.maxDepth = g.maxDepth
  depth : h.depth = g.depth
  behind : es.foldl Event.depthBehind g.depth = g.depth
  stepwise : Event.Stepwise g.depth es
  guarded : ∀ limit, g.maxDepth = some limit → ∀ e ∈ es, ∀ d ∈ e.depth?, d ≤ limit

namespace Run.Balanced

variable {g g₁ h : Grammar}

/-- One event that is neither the beginning nor the end of an expansion. -/
theorem of_still {e : Event} (hm : h.maxDepth = g.maxDepth) (hd : h.depth = g.depth)
    (he : e.depth? = none) (hb : e.depthBehind g.depth = g.depth) : Balanced g [e] h where
  maxDepth := hm
  depth := hd
  behind := hb
  stepwise := ⟨by simp [he], trivial⟩
  guarded := by simp [he]

theorem append {es fs : List Event} (hes : Balanced g es g₁) (hfs : Balanced g₁ fs h) :
    Balanced g (es ++ fs) h where
  maxDepth := hfs.maxDepth.trans hes.maxDepth
  depth := hfs.depth.trans hes.depth
  behind := by
    rw [List.foldl_append, hes.behind, ← hes.depth, hfs.behind]
  stepwise := by
    rw [Event.stepwise_append, hes.behind]
    exact ⟨hes.stepwise, hes.depth ▸ hfs.stepwise⟩
  guarded := by
    intro limit hl e he
    rcases List.mem_append.1 he with he | he
    · exact hes.guarded limit hl e he
    · exact hfs.guarded limit (hes.maxDepth.trans hl) e he

theorem expand {es : List Event} (key : Text) (text : Chain Char) (hga : g.admits = true)
    (hes : Balanced g.enter es h) :
    Balanced g (.entered key (g.depth + 1) :: es ++ [.expanded key text]) h.leave where
  maxDepth := hes.maxDepth
  depth := by
    have hdepth : h.depth = g.depth + 1 := hes.depth
    -- one level is entered and left; the zero at which leaving stops is not reached
    show h.depth - 1 = g.depth
    omega
  behind := by
    have hbehind : es.foldl Event.depthBehind (g.depth + 1) = g.depth + 1 := hes.behind
    show (es ++ [_]).foldl Event.depthBehind (g.depth + 1) = g.depth
    rw [List.foldl_append, hbehind]
    rfl
  stepwise := by
    show Event.Stepwise g.depth (_ :: (es ++ [_]))
    refine ⟨?_, Event.stepwise_append.2 ⟨hes.stepwise, ?_, trivial⟩⟩
    · rintro d ⟨⟩
      rfl
    · rintro d ⟨⟩
  guarded := by
    intro limit hl e he
    rcases List.mem_append.1 he with he | he
    · rcases List.mem_cons.1 he with rfl | he
      · rintro d ⟨⟩
        -- the guard has admitted the expansion, so the depth in front of it is below the limit
        have hlt : g.depth < limit := by
          rw [Grammar.admits, hl] at hga
          simpa using hga
        omega
      · exact hes.guarded limit hl e he
    · obtain rfl := List.mem_singleton.1 he
      rintro d ⟨⟩

end Run.Balanced

theorem Run.effect_balanced : Run.Effect Run.Balanced where
  nil g := ⟨rfl, rfl, rfl, trivial, by simp⟩
  append := .append
  undefined key _ := .of_still rfl rfl rfl rfl
  refuse key _ := .of_still rfl rfl rfl rfl
  expand := .expand
  push g key text := .of_still rfl rfl rfl rfl
  pop g key := by
    obtain ⟨s, hs⟩ := Grammar.pop_eq g key
    rw [hs]
    exact .of_still rfl rfl rfl rfl
  draw g bound hb := by
    rw [Grammar.draw_eq hb]
    exact .of_still rfl rfl rfl rfl

/-- **Expansions begin and end in pairs** in every evaluation that ends. -/
theorem Tree.Yields.balanced {t : Tree} {g : Grammar} {o : Outcome Text} (ho : t.Yields g o) :
    Run.Balanced g o.events o.grammar :=
  Run.effect_balanced.yields ho

end TextGrammar
