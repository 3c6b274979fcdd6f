import TextGrammar.RuleSet.Json

/-!
# TextGrammar.Proofs.RuleSet.Reading — reading to the end

`Completes` says that lexemes complete a rule set from where the reading is.  A value that is no rule is
refused only when it ends; until then it is among the open lists and objects (`Doomed`), and nothing
that follows can change that (`Doomed.not_completes`).
-/

namespace TextGrammar.Json

/-! ### Reading to the end -/

/-- Reading the lexemes, and the end behind them, completes a rule set. -/
def Completes (r : Reading) (ls : List Lexeme) (rules : RuleSet) : Prop :=
  (ls.foldlM Reading.step r >>= Reading.finish) = .ok rules

variable {r : Reading} {l : Lexeme} {ls : List Lexeme} {rules set : RuleSet} {key : Text}
  {frames : List Frame} {due : Due}

theorem finish_eq_ok_iff : r.finish = .ok rules ↔ r = .complete rules := by
  constructor
  · intro h
    unfold Reading.finish at h
    split at h <;> cases h
    rfl
  · rintro rfl
    rfl

theorem completes_nil_iff : Completes r [] rules ↔ r = .complete rules := finish_eq_ok_iff

theorem not_completes_nil : ¬ Completes (.within frames due) [] rules := by
  rw [completes_nil_iff]
  exact fun h => nomatch h

theorem completes_cons_iff :
    Completes r (l :: ls) rules ↔ ∃ r', r.step l = .ok r' ∧ Completes r' ls rules := by
  unfold Completes
  rw [List.foldlM_cons]
  cases r.step l with
  | error e =>
    constructor
    · intro h
      cases h
    · rintro ⟨_, h, -⟩
      cases h
  | ok r' =>
    constructor
    · intro h
      exact ⟨r', rfl, h⟩
    · rintro ⟨_, hr, h⟩
      cases hr
      exact h

/-- Within open lists and objects there is a lexeme to come. -/
theorem Completes.exists_cons (h : Completes (.within frames due) ls rules) :
    ∃ l rest r, ls = l :: rest ∧ (Reading.within frames due).step l = .ok r ∧ Completes r rest rules := by
  cases ls with
  | nil => exact (not_completes_nil h).elim
  | cons l rest =>
    obtain ⟨r, hr, h⟩ := completes_cons_iff.1 h
    exact ⟨l, rest, r, rfl, hr, h⟩

/-- Nothing may follow a complete rule set. -/
theorem completes_complete_iff : Completes (.complete set) ls rules ↔ ls = [] ∧ rules = set := by
  cases ls with
  | nil =>
    rw [completes_nil_iff, Reading.complete.injEq]
    exact ⟨fun h => ⟨rfl, h.symm⟩, fun h => h.2.symm⟩
  | cons l ls =>
    rw [completes_cons_iff]
    constructor
    · rintro ⟨_, h, -⟩
      cases h
    · rintro ⟨h, -⟩
      cases h

theorem readSeparator_cases (h : readSeparator frames l = .ok r) :
    close frames = .ok r ∨ ∃ due, r = .within frames due := by
  unfold readSeparator at h
  split at h
  · cases h
    exact .inr ⟨_, rfl⟩
  · exact .inl h
  · cases h
  · cases h
    exact .inr ⟨_, rfl⟩
  · exact .inl h
  · cases h

/-- What a lexeme does within open lists and objects: it begins or is a value, it is a key, it ends the
innermost list or object, or it only changes what is due. -/
theorem step_cases (h : (Reading.within frames due).step l = .ok r) :
    readValue frames l = .ok r ∨ readKey frames l = .ok r ∨ close frames = .ok r ∨
      ∃ due', r = .within frames due' := by
  -- what is due decides what is read; only a bracket can end something in its place
  cases due with
  | value => exact .inl h
  | firstItem =>
    cases l with
    | closeBracket => exact .inr (.inr (.inl h))
    | _ => exact .inl h
  | nextItem =>
    cases l with
    | closeBracket => cases h
    | _ => exact .inl h
  | firstKey =>
    cases l with
    | closeBrace => exact .inr (.inr (.inl h))
    | _ => exact .inr (.inl h)
  | nextKey =>
    cases l with
    | closeBrace => cases h
    | _ => exact .inr (.inl h)
  | colon =>
    cases l with
    | colon =>
      cases h
      exact .inr (.inr (.inr ⟨_, rfl⟩))
    | _ => cases h
  | separator =>
    rcases readSeparator_cases h with h | h
    · exact .inr (.inr (.inl h))
    · exact .inr (.inr (.inr h))

/-! ### Values that are no rules -/

/-- The lists and objects that are open within a member's value. -/
inductive Inner : List Frame → Prop
  | list {items : List Value} {set : RuleSet} {key : Text} : Inner [.list items, .rules set key]
  | object {members : List (Text × Value)} {k : Text} {set : RuleSet} {key : Text} :
    Inner [.object members k, .rules set key]
  | inList {items : List Value} {below : List Frame} (h : Inner below) : Inner (.list items :: below)
  | inObject {members : List (Text × Value)} {k : Text} {below : List Frame} (h : Inner below) :
    Inner (.object members k :: below)

/-- The value that they are part of is no rule: it is an object, or one of its items is no string. -/
inductive Doomed : List Frame → Prop
  | list {items : List Value} {set : RuleSet} {key : Text} (h : ∃ v ∈ items, v.string? = none) :
    Doomed [.list items, .rules set key]
  | object {members : List (Text × Value)} {k : Text} {set : RuleSet} {key : Text} :
    Doomed [.object members k, .rules set key]
  | inList {items : List Value} {below : List Frame} (h : Inner below) : Doomed (.list items :: below)
  | inObject {members : List (Text × Value)} {k : Text} {below : List Frame} (h : Inner below) :
    Doomed (.object members k :: below)

/-- The reading is within a value that is no rule. -/
def Reading.IsDoomed : Reading → Prop
  | .within frames _ => Doomed frames
  | .complete _ => False

theorem mapM_string?_map (ts : List Text) : (ts.map Value.string).mapM Value.string? = some ts := by
  induction ts with
  | nil => rfl
  | cons t ts ih =>
    rw [List.map_cons, List.mapM_cons, ih]
    rfl

theorem mapM_string?_eq_none {items : List Value} (h : ∃ v ∈ items, v.string? = none) :
    items.mapM Value.string? = none := by
  induction items with
  | nil =>
    obtain ⟨v, hv, -⟩ := h
    cases hv
  | cons v items ih =>
    rw [List.mapM_cons]
    cases hv : v.string? with
    | none => rfl
    | some t =>
      obtain ⟨w, hw, hnone⟩ := h
      rcases List.mem_cons.1 hw with rfl | hw
      · rw [hv] at hnone
        cases hnone
      · rw [ih ⟨w, hw, hnone⟩]
        rfl

theorem Doomed.inner (h : Doomed frames) : Inner frames := by
  cases h with
  | list => exact .list
  | object => exact .object
  | inList h => exact .inList h
  | inObject h => exact .inObject h

/-- What is no string dooms the value that it becomes part of. -/
theorem Inner.place (h : Inner frames) {v : Value} (hv : v.string? = none)
    (hplace : Json.place v frames = .ok r) : r.IsDoomed := by
  cases h with
  | list =>
    cases hplace
    exact .list ⟨v, List.mem_append_right _ List.mem_cons_self, hv⟩
  | object =>
    cases hplace
    exact .object
  | inList h =>
    cases hplace
    exact .inList h
  | inObject h =>
    cases hplace
    exact .inObject h

namespace Doomed

theorem place (h : Doomed frames) {v : Value} (hplace : Json.place v frames = .ok r) : r.IsDoomed := by
  cases h with
  | list h =>
    cases hplace
    obtain ⟨w, hw, hnone⟩ := h
    exact .list ⟨w, List.mem_append_left _ hw, hnone⟩
  | object =>
    cases hplace
    exact .object
  | inList h =>
    cases hplace
    exact .inList h
  | inObject h =>
    cases hplace
    exact .inObject h

/-- The value itself cannot end, and what ends within it is no string. -/
theorem close (h : Doomed frames) (hclose : Json.close frames = .ok r) : r.IsDoomed := by
  cases h with
  | @list items set key h =>
    have hrule : (Value.list items).rule? = none := by
      rw [Value.rule?, mapM_string?_eq_none h]
      rfl
    rw [Json.close, Json.place, hrule] at hclose
    cases hclose
  | object => cases hclose
  | inList h => exact h.place rfl hclose
  | inObject h => exact h.place rfl hclose

theorem ne_nil (h : Doomed frames) : frames.isEmpty = false := by
  cases h <;> rfl

theorem readValue (h : Doomed frames) (hr : Json.readValue frames l = .ok r) : r.IsDoomed := by
  -- a list or object within a doomed value is doomed with it; one too deep is an error already
  have hdescend {frame : Frame} {due : Due} (hd : descend frame due frames = .ok r) :
      r = .within (frame :: frames) due := by
    unfold descend at hd
    split at hd <;> cases hd
    rfl
  cases l with
  | scalar s => exact h.place hr
  | string t => exact h.place hr
  | openBracket =>
    rw [Json.readValue, h.ne_nil] at hr
    rw [hdescend hr]
    exact .inList h.inner
  | openBrace =>
    rw [Json.readValue, h.ne_nil] at hr
    rw [hdescend hr]
    exact .inObject h.inner
  | _ => cases hr

theorem readKey (h : Doomed frames) (hr : Json.readKey frames l = .ok r) : r.IsDoomed := by
  cases h with
  | list | inList => cases l <;> cases hr
  | object =>
    cases l <;> cases hr
    exact .object
  | inObject h =>
    cases l <;> cases hr
    exact .inObject h

/-- Whatever is read, the value stays one that is no rule. -/
theorem step (h : Doomed frames) (hr : (Reading.within frames due).step l = .ok r) : r.IsDoomed := by
  rcases step_cases hr with hr | hr | hr | ⟨due', rfl⟩
  · exact h.readValue hr
  · exact h.readKey hr
  · exact h.close hr
  · exact h

/-- No rule set is completed. -/
theorem not_completes (h : Doomed frames) : ¬ Completes (.within frames due) ls rules := by
  induction ls generalizing frames due with
  | nil => exact not_completes_nil
  | cons l ls ih =>
    intro hc
    obtain ⟨r, hr, hc⟩ := completes_cons_iff.1 hc
    cases r with
    | within frames' due' => exact ih (h.step hr) hc
    | complete set => exact h.step hr

end Doomed

end TextGrammar.Json
