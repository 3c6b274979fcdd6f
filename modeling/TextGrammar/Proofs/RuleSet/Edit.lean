import Mathlib.Data.Set.Card
import TextGrammar.RuleSet.Edit

/-!
# TextGrammar.Proofs.RuleSet.Edit — edits one after the other

Edits are attempted one after the other, and the files may change in between.  An attempt whose rules can
be had puts them over those that are there (`Attempt.get?_perform`); any other attempt changes nothing.  So
a key has the rule that the last attempt to name it gave (`Attempt.get?_performAll`), and the keys are those
that have been named.  Two attempts in turn are one attempt with the merge of their rules, which is what the
laws of `KeyMap.merge` say.
-/

namespace TextGrammar.Edit

/-- The rules that an edit brings, with their keys, if they can be had. -/
def entries? (files : Files) : Edit → Except RuleSet.Error (List (Text × Rule))
  | insert key rule => .ok [(key, rule)]
  | merge rules => .ok rules.entries
  | mergeJson s => (RuleSet.Format.json.read s).map KeyMap.entries
  | mergeFile path => (RuleSet.load files path).map KeyMap.entries

variable {files : Files} {e : Edit} {set : RuleSet} {entries : List (Text × Rule)}
  {error : RuleSet.Error}

/-- An edit puts what it brings over what is there. -/
theorem apply_eq (files : Files) (set : RuleSet) (e : Edit) :
    e.apply files set = (e.entries? files).map set.insertAll := by
  cases e with
  | insert key rule => rfl
  | merge rules => rfl
  | mergeJson s =>
    show (RuleSet.Format.json.read s >>= fun rules => .ok (KeyMap.merge set rules)) = _
    rw [entries?]
    cases RuleSet.Format.json.read s <;> rfl
  | mergeFile path =>
    show (RuleSet.load files path >>= fun rules => .ok (KeyMap.merge set rules)) = _
    rw [entries?]
    cases RuleSet.load files path <;> rfl

theorem apply_eq_error_iff : e.apply files set = .error error ↔ e.entries? files = .error error := by
  rw [apply_eq]
  cases e.entries? files <;> simp [Except.map]

theorem perform_of_ok (h : e.entries? files = .ok entries) :
    e.perform files set = set.insertAll entries := by
  rw [perform, apply_eq, h]
  rfl

theorem perform_of_error (h : e.entries? files = .error error) : e.perform files set = set := by
  rw [perform, apply_eq, h]
  rfl

/-- What an edit brings has one rule for a key. -/
theorem increasing_of_entries? (h : e.entries? files = .ok entries) : KeyMap.Increasing entries := by
  -- what is read is a rule set, whose entries stand in key order by its type
  have hmap {r : Except RuleSet.Error RuleSet} (hr : r.map KeyMap.entries = .ok entries) :
      KeyMap.Increasing entries := by
    cases r with
    | error error => cases hr
    | ok rules =>
      cases hr
      exact rules.increasing
  cases e with
  | insert key rule =>
    cases h
    exact List.pairwise_singleton _ _
  | merge rules =>
    cases h
    exact rules.increasing
  | mergeJson s => exact hmap h
  | mergeFile path => exact hmap h

/-- An edit that is attempted, with the files as they are by then. -/
structure Attempt where
  files : Files
  edit : Edit

namespace Attempt

/-- The attempt succeeds and gives the key the rule. -/
def Gives (a : Attempt) (key : Text) (rule : Rule) : Prop :=
  ∃ entries, a.edit.entries? a.files = .ok entries ∧ (key, rule) ∈ entries

/-- The attempt succeeds and names the key. -/
def Names (a : Attempt) (key : Text) : Prop := ∃ rule, a.Gives key rule

def perform (set : RuleSet) (a : Attempt) : RuleSet := a.edit.perform a.files set

def performAll (set : RuleSet) (attempts : List Attempt) : RuleSet := attempts.foldl perform set

/-- The rule that an attempt gives a key, if it gives one. -/
def rule? (key : Text) (a : Attempt) : Option Rule :=
  match a.edit.entries? a.files with
  | .ok entries => KeyMap.lookup key entries
  | .error _ => none

variable {a : Attempt} {attempts : List Attempt} {key : Text} {rule : Rule}

theorem rule?_eq_some_iff : a.rule? key = some rule ↔ a.Gives key rule := by
  unfold rule? Gives
  cases h : a.edit.entries? a.files with
  | error error => simp
  | ok entries => simp [KeyMap.lookup_eq_some_iff (increasing_of_entries? h)]

theorem rule?_eq_none_iff : a.rule? key = none ↔ ¬ a.Names key := by
  simp only [Option.eq_none_iff_forall_ne_some, ne_eq, rule?_eq_some_iff, Names, not_exists]

/-! ### What a key has -/

/-- What an attempt gives a key counts before what the key has. -/
theorem get?_perform (set : RuleSet) (a : Attempt) (key : Text) :
    (perform set a).get? key = (a.rule? key).or (set.get? key) := by
  unfold perform rule?
  cases h : a.edit.entries? a.files with
  | error error => rw [perform_of_error h, Option.none_or]
  | ok entries => rw [perform_of_ok h, KeyMap.get?_insertAll (increasing_of_entries? h)]

/-- The first of the attempts, from the last one back, that gives a key a rule counts. -/
theorem get?_performAll (set : RuleSet) (attempts : List Attempt) (key : Text) :
    (performAll set attempts).get? key =
      (attempts.reverse.findSome? (rule? key)).or (set.get? key) := by
  induction attempts generalizing set with
  | nil => rfl
  | cons a attempts ih =>
    have hfirst : [a].findSome? (rule? key) = a.rule? key := by
      cases h : a.rule? key <;> simp [h]
    show (performAll (perform set a) attempts).get? key = _
    rw [ih, get?_perform, List.reverse_cons, List.findSome?_append, hfirst, Option.or_assoc]

theorem get?_performAll_empty (attempts : List Attempt) (key : Text) :
    (performAll ∅ attempts).get? key = attempts.reverse.findSome? (rule? key) := by
  rw [get?_performAll, KeyMap.get?_empty, Option.or_none]

theorem get?_eq_some_iff : (performAll ∅ attempts).get? key = some rule ↔
    ∃ earlier a later, attempts = earlier ++ a :: later ∧ a.Gives key rule ∧
      ∀ b ∈ later, ¬ b.Names key := by
  rw [get?_performAll_empty, List.findSome?_eq_some_iff]
  simp only [rule?_eq_some_iff, rule?_eq_none_iff]
  -- the attempts behind the one that counts are those in front of it from the last one back
  constructor
  · rintro ⟨later, a, earlier, hsplit, hgives, hlater⟩
    refine ⟨earlier.reverse, a, later.reverse, ?_, hgives, fun b hb => ?_⟩
    · rw [List.reverse_eq_iff.1 hsplit]
      simp
    · exact hlater b (List.mem_reverse.1 hb)
  · rintro ⟨earlier, a, later, rfl, hgives, hlater⟩
    refine ⟨later.reverse, a, earlier.reverse, by simp, hgives, fun b hb => ?_⟩
    exact hlater b (List.mem_reverse.1 hb)

theorem get?_eq_none_iff :
    (performAll ∅ attempts).get? key = none ↔ ∀ a ∈ attempts, ¬ a.Names key := by
  rw [get?_performAll_empty, List.findSome?_eq_none_iff]
  simp only [List.mem_reverse, rule?_eq_none_iff]

/-! ### The keys -/

/-- The keys are those that have been named. -/
theorem mem_keys_performAll :
    key ∈ (performAll ∅ attempts).keys ↔ ∃ a ∈ attempts, a.Names key := by
  rw [KeyMap.mem_keys_iff, Option.isSome_iff_ne_none, ne_eq, get?_eq_none_iff]
  push Not
  rfl

theorem size_performAll (attempts : List Attempt) :
    (performAll ∅ attempts).size = {key | ∃ a ∈ attempts, a.Names key}.ncard := by
  have hkeys : {key | ∃ a ∈ attempts, a.Names key} =
      ((performAll ∅ attempts).keys.toFinset : Set Text) := by
    ext key
    rw [Finset.mem_coe, List.mem_toFinset]
    exact mem_keys_performAll.symm
  rw [hkeys, Set.ncard_coe_finset, List.toFinset_card_of_nodup (KeyMap.nodup_keys _),
    KeyMap.length_keys]

end Attempt

/-- With files that do not change, edits are attempts with these files. -/
theorem performAll_eq_attempts (files : Files) (set : RuleSet) (edits : List Edit) :
    performAll files set edits = Attempt.performAll set (edits.map (⟨files, ·⟩)) := by
  rw [Attempt.performAll, List.foldl_map]
  rfl

/-- **The last rule given counts.**  After attempts from the empty rule set on, the keys strictly increase, a
key has the rule that the last successful attempt to name it gave, and there are as many keys as have been
named.  An attempt whose rules cannot be had says so and changes nothing.  Merging is associative, has the
empty rule set as its unit, changes nothing that is there already, and prefers what is merged. -/
theorem performAll_latest :
    (∀ attempts : List Attempt,
      (Attempt.performAll ∅ attempts).keys.Pairwise (· < ·) ∧
      (∀ key rule, (Attempt.performAll ∅ attempts).get? key = some rule ↔
        ∃ earlier a later, attempts = earlier ++ a :: later ∧ a.Gives key rule ∧
          ∀ b ∈ later, ¬ b.Names key) ∧
      (∀ key, (Attempt.performAll ∅ attempts).get? key = none ↔ ∀ a ∈ attempts, ¬ a.Names key) ∧
      (Attempt.performAll ∅ attempts).size = {key | ∃ a ∈ attempts, a.Names key}.ncard ∧
      ((Attempt.performAll ∅ attempts).isEmpty = true ↔ (Attempt.performAll ∅ attempts).size = 0)) ∧
    (∀ files edits,
      performAll files ∅ edits = Attempt.performAll ∅ (edits.map (⟨files, ·⟩))) ∧
    (∀ (e : Edit) files set error,
      (e.apply files set = .error error ↔ e.entries? files = .error error) ∧
        (e.apply files set = .error error → e.perform files set = set)) ∧
    ∀ m n p : RuleSet, (m.merge n).merge p = m.merge (n.merge p) ∧
      m.merge ∅ = m ∧ (∅ : RuleSet).merge m = m ∧ m.merge m = m ∧
      ∀ key, (m.merge n).get? key = (n.get? key).or (m.get? key) := by
  refine ⟨fun attempts => ⟨KeyMap.increasing_keys _, fun _ _ => Attempt.get?_eq_some_iff,
    fun _ => Attempt.get?_eq_none_iff, Attempt.size_performAll attempts, ?_⟩,
    fun files edits => performAll_eq_attempts files ∅ edits, ?_, ?_⟩
  · rw [KeyMap.isEmpty, KeyMap.size, List.isEmpty_iff_length_eq_zero]
  · intro e files set error
    exact ⟨apply_eq_error_iff, fun h => perform_of_error (apply_eq_error_iff.1 h)⟩
  · intro m n p
    exact ⟨m.merge_assoc n p, m.merge_empty, m.empty_merge, m.merge_self, m.get?_merge n⟩

/-- A file that is not there at first, a key that stands twice in a text, and a text that breaks off. -/
theorem performAll_latest_file :
    let nowhere : Files := fun _ => .error .notFound
    let written : Files := fun _ => .ok (encodeText "\x7b\"b\":[]\x7d".toList)
    let broken : Edit := .mergeJson "\x7b\"a\":".toList
    let attempts : List Attempt :=
      [⟨nowhere, .insert ['b'] (.one ['x'])⟩, ⟨nowhere, .mergeFile "r.json".toList⟩,
        ⟨nowhere, .mergeJson "\x7b\"b\":\"y\",\"a\":\"y\",\"a\":[\"z\"]\x7d".toList⟩,
        ⟨written, .mergeFile "r.json".toList⟩, ⟨written, broken⟩]
    (Attempt.performAll ∅ attempts).get? ['a'] = some (.many [['z']]) ∧
      (Attempt.performAll ∅ attempts).get? ['b'] = some (.many []) ∧
      (Attempt.performAll ∅ attempts).get? ['c'] = none ∧
      ∀ set, broken.apply written set = .error (.json .endInValue) ∧ broken.perform written set = set := by
  intro nowhere written broken attempts
  obtain ⟨hruns, -, hfails, -⟩ := performAll_latest
  obtain ⟨-, hsome, hnone, -, -⟩ := hruns attempts
  -- the same path fails before the file is written and succeeds after it
  have hfile : (Edit.mergeFile "r.json".toList).entries? written = .ok [(['b'], .many [])] := by
    have hformat : RuleSet.Format.ofPath? "r.json".toList = some .json := rfl
    rw [entries?, RuleSet.load_of_ok hformat rfl, decodeText_encodeText]
    rfl
  have hgiven {key : Text} : Attempt.rule? key ⟨written, .mergeFile "r.json".toList⟩ =
      KeyMap.lookup key [(['b'], Rule.many [])] := by
    rw [Attempt.rule?, hfile]
  have hbroken {key : Text} : ¬ Attempt.Names ⟨written, broken⟩ key := Attempt.rule?_eq_none_iff.1 rfl
  have ha : ∀ b ∈ attempts.drop 3, ¬ b.Names ['a'] := by
    simp only [attempts, List.drop_succ_cons, List.drop_zero, List.forall_mem_cons]
    exact ⟨Attempt.rule?_eq_none_iff.1 hgiven, hbroken, by simp⟩
  have hb : ∀ b ∈ attempts.drop 4, ¬ b.Names ['b'] := by
    simp only [attempts, List.drop_succ_cons, List.drop_zero, List.forall_mem_cons]
    exact ⟨hbroken, by simp⟩
  refine ⟨(hsome _ _).2 ⟨attempts.take 2, _, _, rfl, Attempt.rule?_eq_some_iff.1 rfl, ha⟩,
    (hsome _ _).2 ⟨attempts.take 3, _, _, rfl, Attempt.rule?_eq_some_iff.1 hgiven, hb⟩,
    (hnone _).2 ?_, fun set => ?_⟩
  · simp only [attempts, List.forall_mem_cons]
    exact ⟨Attempt.rule?_eq_none_iff.1 rfl, Attempt.rule?_eq_none_iff.1 rfl,
      Attempt.rule?_eq_none_iff.1 rfl, Attempt.rule?_eq_none_iff.1 hgiven, hbroken, by simp⟩
  · obtain ⟨happly, hkept⟩ := hfails broken written set (.json .endInValue)
    exact ⟨happly.2 rfl, hkept (happly.2 rfl)⟩

end TextGrammar.Edit
