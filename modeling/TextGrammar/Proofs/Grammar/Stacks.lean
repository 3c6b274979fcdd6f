import TextGrammar.Grammar.Basic

/-!
# TextGrammar.Proofs.Grammar.Stacks — rules on the stacks

Rules are laid on stacks in one of two ways.  Pushing lays an entry for each source text on the stack of
one key (`Grammar.stack_pushRules`).  Loading a rule set lays one entry for each of its keys, which draws
one of the alternatives (`Grammar.stack_load`).  Both lay entries one after the other
(`Grammar.pushAll`), so the stack of a key gets those of its own, and nothing but stacks changes.
Entries of different keys may be laid in any order (`Grammar.pushAll_congr`).
-/

namespace TextGrammar

/-! ### Entries of one key -/

namespace KeyMap

variable {α : Type}

/-- The values that a key has in a list of entries, in their order. -/
def valuesOf (key : Text) (entries : List (Text × α)) : List α :=
  (entries.filter fun e => e.1 = key).map (·.2)

theorem valuesOf_cons (key : Text) (e : Text × α) (entries : List (Text × α)) :
    valuesOf key (e :: entries) =
      if e.1 = key then e.2 :: valuesOf key entries else valuesOf key entries := by
  unfold valuesOf
  by_cases hk : e.1 = key
  · rw [if_pos hk, List.filter_cons_of_pos (by simpa using hk), List.map_cons]
  · rw [if_neg hk, List.filter_cons_of_neg (by simpa using hk)]

theorem valuesOf_append (key : Text) (entries more : List (Text × α)) :
    valuesOf key (entries ++ more) = valuesOf key entries ++ valuesOf key more := by
  unfold valuesOf
  rw [List.filter_append, List.map_append]

/-- A key has at most one entry in a map. -/
theorem valuesOf_entries (m : KeyMap α) (key : Text) :
    valuesOf key m.entries = (m.get? key).toList := by
  obtain ⟨entries, increasing⟩ := m
  show _ = (lookup key entries).toList
  induction entries with
  | nil => rfl
  | cons e entries ih =>
    obtain ⟨k, a⟩ := e
    obtain ⟨hk, hentries⟩ := List.pairwise_cons.1 increasing
    rw [valuesOf_cons, ih hentries, lookup]
    by_cases hkey : k = key
    · subst hkey
      rw [if_pos rfl, if_pos rfl, lookup_eq_none_of_lt hk]
      rfl
    · rw [if_neg hkey, if_neg (Ne.symm hkey)]

end KeyMap

/-- The values that loading a rule set lays on stacks, with their keys. -/
def RuleSet.trees (rules : RuleSet) : List (Text × Tree) :=
  rules.entries.map fun e => (e.1, Tree.parseAlternatives e.2.alternatives)

theorem RuleSet.valuesOf_trees (rules : RuleSet) (key : Text) :
    KeyMap.valuesOf key rules.trees =
      ((rules.get? key).map fun r => Tree.parseAlternatives r.alternatives).toList := by
  rw [Option.toList_map, ← rules.valuesOf_entries key, KeyMap.valuesOf, trees, List.filter_map,
    List.map_map, KeyMap.valuesOf, List.map_map]
  rfl

/-- The values of a key in several rule sets, in their order. -/
theorem RuleSet.valuesOf_flatMap_trees (ruleSets : List RuleSet) (key : Text) :
    KeyMap.valuesOf key (ruleSets.flatMap trees) = ruleSets.filterMap fun r =>
      (r.get? key).map fun rule => Tree.parseAlternatives rule.alternatives := by
  induction ruleSets with
  | nil => rfl
  | cons r ruleSets ih =>
    rw [List.flatMap_cons, KeyMap.valuesOf_append, valuesOf_trees, ih, List.filterMap_cons]
    cases r.get? key <;> rfl

namespace Grammar

/-! ### Laying entries on stacks -/

/-- Lay values on the stacks of their keys, one after the other. -/
def pushAll (g : Grammar) (entries : List (Text × Tree)) : Grammar :=
  entries.foldl (fun g e => g.push e.1 e.2) g

theorem pushAll_cons (g : Grammar) (e : Text × Tree) (entries : List (Text × Tree)) :
    g.pushAll (e :: entries) = (g.push e.1 e.2).pushAll entries := rfl

theorem pushAll_append (g : Grammar) (entries more : List (Text × Tree)) :
    g.pushAll (entries ++ more) = (g.pushAll entries).pushAll more := List.foldl_append

theorem pushRules_eq_pushAll (g : Grammar) (key : Text) (sources : List Text) :
    g.pushRules key sources = g.pushAll (sources.map fun s => (key, Tree.parse s)) := by
  rw [pushAll, List.foldl_map, pushRules]

theorem load_eq_pushAll (g : Grammar) (rules : RuleSet) : g.load rules = g.pushAll rules.trees := by
  rw [pushAll, RuleSet.trees, List.foldl_map, load]

/-- Only stacks change. -/
theorem pushAll_eq (g : Grammar) (entries : List (Text × Tree)) :
    ∃ store, g.pushAll entries = { g with store } := by
  induction entries generalizing g with
  | nil => exact ⟨g.store, rfl⟩
  | cons e entries ih => exact ih (g.push e.1 e.2)

/-- A stack gets the values of its key, the last one on top. -/
theorem stack_pushAll (g : Grammar) (entries : List (Text × Tree)) (k : Text) :
    (g.pushAll entries).stack k = (KeyMap.valuesOf k entries).reverse ++ g.stack k := by
  induction entries generalizing g with
  | nil => rfl
  | cons e entries ih =>
    rw [pushAll_cons, ih, stack_push, KeyMap.valuesOf_cons]
    by_cases hk : k = e.1
    · subst hk
      rw [if_pos rfl, if_pos rfl, List.reverse_cons, List.append_assoc]
      rfl
    · rw [if_neg hk, if_neg (Ne.symm hk)]

/-- A key that gets no value keeps its entry in the store, if it has one. -/
theorem get?_store_pushAll (g : Grammar) (entries : List (Text × Tree)) (k : Text) :
    (g.pushAll entries).store.get? k =
      if KeyMap.valuesOf k entries = [] then g.store.get? k
      else some ((g.pushAll entries).stack k) := by
  induction entries generalizing g with
  | nil => rfl
  | cons e entries ih =>
    have hstore : (g.push e.1 e.2).store.get? k = _ := g.store.get?_insert e.1 k _
    rw [pushAll_cons, ih, KeyMap.valuesOf_cons, hstore]
    by_cases hk : e.1 = k
    · subst hk
      rw [if_pos rfl, if_pos rfl, if_neg (List.cons_ne_nil _ _)]
      by_cases hnone : KeyMap.valuesOf e.1 entries = []
      · rw [if_pos hnone, stack_pushAll, hnone, stack_push, if_pos rfl]
        rfl
      · rw [if_neg hnone]
    · rw [if_neg hk, if_neg (Ne.symm hk)]

/-- **Entries of different keys may be laid in any order**; each key must get its own in the same
order. -/
theorem pushAll_congr (g : Grammar) {entries entries' : List (Text × Tree)}
    (h : ∀ k, KeyMap.valuesOf k entries = KeyMap.valuesOf k entries') :
    g.pushAll entries = g.pushAll entries' := by
  have hstore : (g.pushAll entries).store = (g.pushAll entries').store := by
    refine KeyMap.ext_get? fun k => ?_
    rw [get?_store_pushAll, get?_store_pushAll, stack_pushAll, stack_pushAll, h k]
  obtain ⟨store, hs⟩ := g.pushAll_eq entries
  obtain ⟨store', hs'⟩ := g.pushAll_eq entries'
  rw [hs, hs'] at hstore ⊢
  obtain rfl : store = store' := hstore
  rfl

/-! ### Pushing and loading rules -/

/-- **Pushing rules** lays an entry for each of them on the stack of the key, the last one on top. -/
theorem stack_pushRules (g : Grammar) (key k : Text) (sources : List Text) :
    (g.pushRules key sources).stack k =
      if k = key then (sources.map Tree.parse).reverse ++ g.stack key else g.stack k := by
  -- each source is an entry of the same key, so other keys get none
  have hvalues : KeyMap.valuesOf k (sources.map fun s => (key, Tree.parse s)) =
      if k = key then sources.map Tree.parse else [] := by
    induction sources with
    | nil => simp [KeyMap.valuesOf]
    | cons s sources ih =>
      rw [List.map_cons, KeyMap.valuesOf_cons, ih]
      by_cases hk : k = key
      · rw [if_pos hk.symm, if_pos hk, if_pos hk, List.map_cons]
      · rw [if_neg (Ne.symm hk), if_neg hk, if_neg hk]
  rw [pushRules_eq_pushAll, stack_pushAll, hvalues]
  by_cases hk : k = key
  · rw [if_pos hk, if_pos hk, hk]
  · rw [if_neg hk, if_neg hk]
    rfl

/-- **Loading rules** lays one entry on the stack of each key that has a rule. -/
theorem stack_load (g : Grammar) (rules : RuleSet) (key : Text) :
    (g.load rules).stack key =
      ((rules.get? key).map fun r => Tree.parseAlternatives r.alternatives).toList ++ g.stack key := by
  rw [load_eq_pushAll, stack_pushAll, rules.valuesOf_trees]
  cases rules.get? key <;> rfl

theorem lookup_load_eq (g : Grammar) (rules : RuleSet) (key : Text) :
    (g.load rules).lookup key =
      ((rules.get? key).map fun r => Tree.parseAlternatives r.alternatives).or (g.lookup key) := by
  rw [lookup, stack_load]
  cases rules.get? key <;> rfl

theorem maxDepth_pushRules (g : Grammar) (key : Text) (sources : List Text) :
    (g.pushRules key sources).maxDepth = g.maxDepth := by
  obtain ⟨store, hstore⟩ := g.pushAll_eq (sources.map fun s => (key, Tree.parse s))
  rw [pushRules_eq_pushAll, hstore]

theorem maxDepth_load (g : Grammar) (rules : RuleSet) : (g.load rules).maxDepth = g.maxDepth := by
  obtain ⟨store, hstore⟩ := g.pushAll_eq rules.trees
  rw [load_eq_pushAll, hstore]

end Grammar

end TextGrammar
