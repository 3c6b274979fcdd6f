import TextGrammar.Proofs.Grammar.Stacks
import TextGrammar.Proofs.Outline.Escaped
import TextGrammar.Proofs.Run.Rules
import TextGrammar.Proofs.Run.Unguarded
import TextGrammar.Proofs.Outline.Kept

/-!
# TextGrammar.Proofs.Grammar.Substitution — a key stands for its rule

Without a limit, reading a key is evaluating its value in its place (`Tree.gives_symbol`): that the value
is evaluated one level deeper is not seen from outside.  A choice asks for one index and is then the
tree there (`Tree.gives_select`).  So flattening a key between number signs is flattening the source text
of its rule, and the two ways of giving rules differ in which one that is (`Grammar.flattens_tag`).
-/

namespace TextGrammar

/-! ### Text between number signs -/

/-- The key between number signs. -/
def Text.tag (key : Text) : Text := '#' :: key ++ ['#']

theorem outline_tag {key : Text} (h : key.Plain) : outline key.tag = [.tag key []] :=
  Open.names_tag.run_plain h .octo []

namespace Tree

theorem parse_tag {key : Text} (h : key.Plain) : parse key.tag = symbol key [] := by
  rw [parse_eq, outline_tag h]
  rfl

/-! ### Reading a key -/

section

variable {g : Grammar} {key : Text} {value : Tree}

/-- Without a limit it does not matter how deep a tree stands. -/
theorem gives_enter (hg : g.maxDepth = none) {text : Text} {draws : List Event} {h : Grammar} :
    value.Gives g.enter text draws h ↔ ∃ g₁, value.Gives g text draws g₁ ∧ h = g₁.enter := by
  rw [gives_iff_write]
  constructor
  · rintro ⟨nesting, q, hq, rfl, rfl, rfl⟩
    rw [write_enter nesting value hg] at hq
    obtain ⟨o, ho, rfl⟩ := Option.map_eq_some_iff.1 hq
    exact ⟨o.grammar, gives_iff_write.2 ⟨nesting, o, ho, rfl, o.draws_deeper.symm, rfl⟩, rfl⟩
  · rintro ⟨g₁, hgives, rfl⟩
    obtain ⟨nesting, o, ho, rfl, rfl, rfl⟩ := gives_iff_write.1 hgives
    have hwrite := write_enter nesting value hg
    rw [ho] at hwrite
    exact ⟨nesting, o.deeper, hwrite, rfl, o.draws_deeper, rfl⟩

/-- **A key is evaluated as its value.** -/
theorem gives_symbol (hg : g.maxDepth = none) (hvalue : g.lookup key = some value) {text : Text}
    {draws : List Event} {h : Grammar} :
    (symbol key []).Gives g text draws h ↔ value.Gives g text draws h := by
  rw [gives_symbol_admitted hvalue (Grammar.admits_of_maxDepth hg)]
  constructor
  · rintro ⟨_, hdeeper, rfl⟩
    obtain ⟨g₁, hgives, rfl⟩ := (gives_enter hg).1 hdeeper
    exact hgives
  · intro hgives
    exact ⟨h.enter, (gives_enter hg).2 ⟨h, hgives, rfl⟩, rfl⟩

end

end Tree

namespace Grammar

/-! ### Rules -/

/-- Flattening one source text is flattening the other: both give the same text after the same draws and
leave the same state, or neither comes to an end. -/
def FlattensAlike (g : Grammar) (s t : Text) : Prop :=
  ∀ text draws h, g.Flattens s text draws h ↔ g.Flattens t text draws h

section

variable {g : Grammar} {key : Text}

/-- A key whose value is the tree of a source text is flattened as the text. -/
theorem flattensAlike_tag (hg : g.maxDepth = none) (hkey : key.Plain) {s : Text}
    (hvalue : g.lookup key = some (Tree.parse s)) : g.FlattensAlike key.tag s := by
  intro text draws h
  rw [flattens_iff, flattens_iff, Tree.parse_tag hkey]
  exact Tree.gives_symbol hg hvalue

theorem lookup_pushRules (g : Grammar) (key : Text) (sources : List Text) (s : Text) :
    (g.pushRules key (sources ++ [s])).lookup key = some (Tree.parse s) := by
  rw [lookup, stack_pushRules, if_pos rfl, List.map_append, List.reverse_append]
  rfl

theorem lookup_load (g : Grammar) {rules : RuleSet} {rule : Rule} (h : rules.get? key = some rule) :
    (g.load rules).lookup key = some (Tree.parseAlternatives rule.alternatives) := by
  rw [lookup_load_eq, h]
  rfl

/-- A key whose value is a choice between source texts asks for one index, and then it is flattened as
the text there. -/
theorem flattens_tag_several (hg : g.maxDepth = none) (hkey : key.Plain) {sources : List Text}
    (hvalue : g.lookup key = some (Tree.parseAlternatives sources)) (hseveral : 2 ≤ sources.length)
    {i : Nat} {g₁ : Grammar} (hdraw : g.draw sources.length = (i, g₁)) :
    ∃ s, sources[i]? = some s ∧ ∀ text draws h, g.Flattens key.tag text draws h ↔
      ∃ rest, draws = .drawn sources.length i :: rest ∧ g₁.Flattens s text rest h := by
  have hselect : Tree.parseAlternatives sources = .select (sources.map Tree.parse) :=
    Tree.ofAlternatives_eq_select (by rwa [List.length_map])
  -- the draw is below the number of alternatives, so the alternative exists
  have hi : i < sources.length := by
    have hne : sources.length ≠ 0 := by omega
    have hlt := g.draw_lt hne
    rwa [hdraw] at hlt
  have hs := List.getElem?_eq_getElem hi
  have ht : (sources.map Tree.parse)[(g.draw (sources.map Tree.parse).length).1]? =
      some (Tree.parse sources[i]) := by
    rw [List.length_map, hdraw, List.getElem?_map, hs]
    rfl
  refine ⟨sources[i], hs, ?_⟩
  intro text draws h
  rw [hselect] at hvalue
  rw [flattens_iff, Tree.parse_tag hkey, Tree.gives_symbol hg hvalue, Tree.gives_select ht,
    List.length_map, hdraw]
  simp only [flattens_iff]

/-- **A key stands for its rule.**  Of source texts that have been pushed that is the last one.  Of a
rule that has been loaded it is the only alternative, or the empty text if there is none; if there are
several of them, one index is asked for and then it is the alternative there. -/
theorem flattens_tag (hg : g.maxDepth = none) (hkey : key.Plain) :
    (∀ sources s, (g.pushRules key (sources ++ [s])).FlattensAlike key.tag s) ∧
    ∀ (rules : RuleSet) (rule : Rule), rules.get? key = some rule →
      (rule.alternatives = [] → (g.load rules).FlattensAlike key.tag []) ∧
      (∀ s, rule.alternatives = [s] → (g.load rules).FlattensAlike key.tag s) ∧
      ∀ n i g₁, n = rule.alternatives.length → 2 ≤ n → (g.load rules).draw n = (i, g₁) →
        ∃ s, rule.alternatives[i]? = some s ∧ ∀ text draws h,
          (g.load rules).Flattens key.tag text draws h ↔
            ∃ rest, draws = .drawn n i :: rest ∧ g₁.Flattens s text rest h := by
  constructor
  · intro sources s
    have hm : (g.pushRules key (sources ++ [s])).maxDepth = none := by rw [maxDepth_pushRules, hg]
    exact flattensAlike_tag hm hkey (lookup_pushRules g key sources s)
  · intro rules rule hrule
    have hm : (g.load rules).maxDepth = none := by rw [maxDepth_load, hg]
    -- the tree that is loaded depends on how many alternatives there are: none, one or several
    have hvalue := lookup_load g hrule
    refine ⟨?_, ?_, ?_⟩
    · intro hnil
      rw [hnil] at hvalue
      exact flattensAlike_tag hm hkey hvalue
    · intro s hone
      rw [hone] at hvalue
      exact flattensAlike_tag hm hkey hvalue
    · rintro n i g₁ rfl hseveral hdraw
      exact flattens_tag_several hm hkey hvalue hseveral hdraw

/-- Values that change their own key: the pushed one takes itself off the stack and reads what was
below it, the second alternative lays another value on top of all of them. -/
theorem flattens_tag_own :
    let g := ofSource (.fixed 1)
    let key : Text := ['k']
    let below : Text := ['b']
    let pushed : Text := ['a', '[', 'k', ':', 'P', 'O', 'P', ']', '#', 'k', '#']
    let second : Text := ['[', 'k', ':', 'z', ']', '#', 'k', '#', '#', 'k', '#']
    let rules : RuleSet := KeyMap.ofList [(key, .many [below, second])]
    g.maxDepth = none ∧ key.Plain ∧
      (∃ h, (g.pushRules key [below, pushed]).Flattens key.tag ['a', 'b'] [] h) ∧
      ∃ h, (g.load rules).Flattens key.tag ['z', 'z'] [.drawn 2 1] h := by
  intro g key below pushed second rules
  have hg : g.maxDepth = none := rfl
  have hkey : key.Plain := by decide
  obtain ⟨hpush, hload⟩ := flattens_tag hg hkey
  obtain ⟨o, ho, hov⟩ : ∃ o, (Run.flatten 1 pushed).full (g.pushRules key [below, pushed]) = some o ∧
      (o.value, o.draws.length) = (['a', 'b'], 0) := Option.map_eq_some_iff.1 (by decide +kernel)
  obtain ⟨hvalue, hdraws⟩ := Prod.mk.inj hov
  obtain ⟨p, hp, hpv⟩ : ∃ p, (Run.flatten 1 second).full ((g.load rules).draw 2).2 = some p ∧
      (p.value, p.draws.length) = (['z', 'z'], 0) := Option.map_eq_some_iff.1 (by decide +kernel)
  obtain ⟨hvalue', hdraws'⟩ := Prod.mk.inj hpv
  have hrule : rules.get? key = some (.many [below, second]) := by decide +kernel
  obtain ⟨s, hs, hsecond⟩ := (hload rules _ hrule).2.2 2 1 _ rfl (by decide) rfl
  obtain rfl := Option.some.inj hs
  refine ⟨hg, hkey, ⟨o.grammar, ?_⟩, p.grammar, ?_⟩
  · exact (hpush [below] pushed _ _ _).2
      ⟨1, o, ho, hvalue, List.length_eq_zero_iff.1 hdraws, rfl⟩
  · exact (hsecond _ _ _).2
      ⟨[], rfl, 1, p, hp, hvalue', List.length_eq_zero_iff.1 hdraws', rfl⟩

end

end Grammar

end TextGrammar
