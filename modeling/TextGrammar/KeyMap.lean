import TextGrammar.Text.Basic

/-!
# TextGrammar.KeyMap — finite maps in key order, and rule sets

A `KeyMap` is a list of entries whose keys strictly increase in the order of their code points.  The
order is part of the type, so two maps with the same look-ups are equal (`KeyMap.ext_get?`) and the
entries of a map have one order.

A rule gives a key one source text or a list of alternatives, and a rule set maps keys to rules.  The
sources stay raw here.
-/

namespace TextGrammar

namespace KeyMap

/-! ### Lists of entries -/

variable {α β : Type}

/-- The keys strictly increase. -/
abbrev Increasing (entries : List (Text × α)) : Prop := entries.Pairwise fun a b => a.1 < b.1

/-- The value of the first entry with the key. -/
def lookup (key : Text) : List (Text × α) → Option α
  | [] => none
  | (k, a) :: rest => if key = k then some a else lookup key rest

/-- The value of the last entry with the key. -/
def lastValue (key : Text) (entries : List (Text × α)) : Option α :=
  (entries.filter fun e => e.1 = key).getLast?.map (·.2)

/-- Put an entry at its place; an entry with the same key makes way for it. -/
def place (key : Text) (value : α) : List (Text × α) → List (Text × α)
  | [] => [(key, value)]
  | (k, a) :: rest =>
    if key < k then (key, value) :: (k, a) :: rest
    else if key = k then (key, value) :: rest
    else (k, a) :: place key value rest

/-- Entries that follow count before the first one. -/
theorem lastValue_cons (key : Text) (e : Text × α) (entries : List (Text × α)) :
    lastValue key (e :: entries) =
      (lastValue key entries).or (if key = e.1 then some e.2 else none) := by
  unfold lastValue
  by_cases h : key = e.1
  · rw [List.filter_cons_of_pos (by simp [h]), if_pos h, List.getLast?_cons]
    cases (entries.filter fun e => e.1 = key).getLast? <;> rfl
  · rw [List.filter_cons_of_neg (by simp [Ne.symm h]), if_neg h, Option.or_none]

theorem lastValue_append (key : Text) (entries more : List (Text × α)) :
    lastValue key (entries ++ more) = (lastValue key more).or (lastValue key entries) := by
  unfold lastValue
  rw [List.filter_append, List.getLast?_append, Option.map_or]

theorem mem_place {key : Text} {value : α} {e : Text × α} {entries : List (Text × α)}
    (h : e ∈ place key value entries) : e = (key, value) ∨ e ∈ entries := by
  induction entries with
  | nil => simpa [place] using h
  | cons head rest ih =>
    obtain ⟨k, a⟩ := head
    simp only [place] at h
    split at h
    · simpa using h
    · split at h
      · rcases List.mem_cons.1 h with h | h
        · exact .inl h
        · exact .inr (List.mem_cons_of_mem _ h)
      · rcases List.mem_cons.1 h with h | h
        · exact .inr (by simp [h])
        · rcases ih h with h | h
          · exact .inl h
          · exact .inr (List.mem_cons_of_mem _ h)

theorem increasing_place {key : Text} {value : α} {entries : List (Text × α)}
    (h : Increasing entries) : Increasing (place key value entries) := by
  induction entries with
  | nil => simp [place]
  | cons head rest ih =>
    obtain ⟨k, a⟩ := head
    obtain ⟨hk, hrest⟩ := List.pairwise_cons.1 h
    simp only [place]
    split
    · rename_i hlt
      refine List.pairwise_cons.2 ⟨fun e he => ?_, h⟩
      rcases List.mem_cons.1 he with rfl | he
      · exact hlt
      · exact List.lt_trans hlt (hk e he)
    · split
      · rename_i heq
        subst heq
        exact List.pairwise_cons.2 ⟨hk, hrest⟩
      · rename_i hnlt hne
        -- what is placed behind the head has a larger key: not smaller, and not the same
        refine List.pairwise_cons.2 ⟨fun e he => ?_, ih hrest⟩
        rcases mem_place he with rfl | he
        · rcases List.le_iff_lt_or_eq.1 (List.not_lt.1 hnlt) with hlt | heq
          · exact hlt
          · exact absurd heq.symm hne
        · exact hk e he

theorem lookup_place (key k : Text) (value : α) (entries : List (Text × α)) :
    lookup k (place key value entries) = if k = key then some value else lookup k entries := by
  induction entries with
  | nil => rfl
  | cons head rest ih =>
    obtain ⟨k', a⟩ := head
    simp only [place]
    split
    · rfl
    · split
      · rename_i heq
        subst heq
        simp only [lookup]
        split <;> rfl
      · rename_i hne
        simp only [lookup, ih]
        split
        · rename_i h
          subst h
          rw [if_neg (Ne.symm hne)]
        · rfl

theorem lookup_eq_none_of_lt {key : Text} {entries : List (Text × α)}
    (h : ∀ e ∈ entries, key < e.1) : lookup key entries = none := by
  induction entries with
  | nil => rfl
  | cons head rest ih =>
    obtain ⟨k, a⟩ := head
    have hlt : key < k := h (k, a) (by simp)
    have hne : key ≠ k := fun heq => List.lt_irrefl k (heq ▸ hlt)
    simp only [lookup, if_neg hne]
    exact ih fun e he => h e (List.mem_cons_of_mem _ he)

/-- Where the keys increase, a key's value stands in its only entry. -/
theorem lookup_eq_some_iff {key : Text} {value : α} {entries : List (Text × α)}
    (h : Increasing entries) : lookup key entries = some value ↔ (key, value) ∈ entries := by
  induction entries with
  | nil => simp [lookup]
  | cons head rest ih =>
    obtain ⟨k, a⟩ := head
    obtain ⟨hk, hrest⟩ := List.pairwise_cons.1 h
    by_cases hkey : key = k
    · subst hkey
      have hrest : (key, value) ∉ rest := fun hmem => List.lt_irrefl key (hk _ hmem)
      simp [lookup, hrest, eq_comm]
    · simp [lookup, hkey, ih hrest]

theorem eq_of_lookup_eq {l m : List (Text × α)} (hl : Increasing l) (hm : Increasing m)
    (h : ∀ key, lookup key l = lookup key m) : l = m := by
  induction l generalizing m with
  | nil =>
    cases m with
    | nil => rfl
    | cons head rest => simpa [lookup] using h head.1
  | cons head rest ih =>
    obtain ⟨k, a⟩ := head
    obtain ⟨hk, hrest⟩ := List.pairwise_cons.1 hl
    cases m with
    | nil => simpa [lookup] using h k
    | cons head' rest' =>
      obtain ⟨k', a'⟩ := head'
      obtain ⟨hk', hrest'⟩ := List.pairwise_cons.1 hm
      -- neither key is the smaller one: below the head of the other list nothing is found
      have hkk : k = k' := by
        refine List.le_antisymm (List.not_lt.1 fun hlt => ?_) (List.not_lt.1 fun hlt => ?_)
        · have hnone : lookup k' ((k, a) :: rest) = none :=
            lookup_eq_none_of_lt fun e he => by
              rcases List.mem_cons.1 he with rfl | he
              · exact hlt
              · exact List.lt_trans hlt (hk e he)
          rw [h k'] at hnone
          simp [lookup] at hnone
        · have hnone : lookup k ((k', a') :: rest') = none :=
            lookup_eq_none_of_lt fun e he => by
              rcases List.mem_cons.1 he with rfl | he
              · exact hlt
              · exact List.lt_trans hlt (hk' e he)
          rw [← h k] at hnone
          simp [lookup] at hnone
      subst hkk
      have haa : a = a' := by simpa [lookup] using h k
      subst haa
      -- the rests agree too, for the head hides nothing in them: its own key does not stand there
      rw [ih hrest hrest' fun key => ?_]
      by_cases hkey : key = k
      · subst hkey
        rw [lookup_eq_none_of_lt hk, lookup_eq_none_of_lt hk']
      · simpa [lookup, hkey] using h key

end KeyMap

/-! ### Maps -/

/-- A finite map from texts, its entries in key order. -/
structure KeyMap (α : Type) where
  entries : List (Text × α)
  increasing : KeyMap.Increasing entries
deriving DecidableEq

namespace KeyMap

variable {α : Type}

def empty : KeyMap α := ⟨[], .nil⟩

instance : EmptyCollection (KeyMap α) := ⟨empty⟩

def get? (m : KeyMap α) (key : Text) : Option α := lookup key m.entries

/-- Give a key a value in place of any that it had. -/
def insert (m : KeyMap α) (key : Text) (value : α) : KeyMap α :=
  ⟨place key value m.entries, increasing_place m.increasing⟩

def insertAll (m : KeyMap α) (entries : List (Text × α)) : KeyMap α :=
  entries.foldl (fun m e => m.insert e.1 e.2) m

/-- The map of a list of entries, in which the last value of a key counts. -/
def ofList (entries : List (Text × α)) : KeyMap α := (∅ : KeyMap α).insertAll entries

/-- The entries of both maps; where both have a key, `other` counts. -/
def merge (m other : KeyMap α) : KeyMap α := m.insertAll other.entries

def keys (m : KeyMap α) : List Text := m.entries.map (·.1)

def size (m : KeyMap α) : Nat := m.entries.length

def isEmpty (m : KeyMap α) : Bool := m.entries.isEmpty

@[simp] theorem get?_empty (key : Text) : (∅ : KeyMap α).get? key = none := rfl

theorem get?_insert (m : KeyMap α) (key k : Text) (value : α) :
    (m.insert key value).get? k = if k = key then some value else m.get? k :=
  lookup_place key k value m.entries

theorem get?_insertAll {entries : List (Text × α)} (h : Increasing entries) (m : KeyMap α)
    (key : Text) : (m.insertAll entries).get? key = (lookup key entries).or (m.get? key) := by
  induction entries generalizing m with
  | nil => rfl
  | cons head rest ih =>
    obtain ⟨k, a⟩ := head
    obtain ⟨hk, hrest⟩ := List.pairwise_cons.1 h
    have hinsert : m.insertAll ((k, a) :: rest) = (m.insert k a).insertAll rest := rfl
    rw [hinsert, ih hrest, get?_insert, lookup]
    by_cases hkey : key = k
    · subst hkey
      rw [lookup_eq_none_of_lt hk, if_pos rfl, if_pos rfl]
      rfl
    · rw [if_neg hkey, if_neg hkey]

/-- Of several entries with one key, the last one counts. -/
theorem get?_insertAll_eq_lastValue (m : KeyMap α) (entries : List (Text × α)) (key : Text) :
    (m.insertAll entries).get? key = (lastValue key entries).or (m.get? key) := by
  induction entries generalizing m with
  | nil => rfl
  | cons e entries ih =>
    have hinsert : m.insertAll (e :: entries) = (m.insert e.1 e.2).insertAll entries := rfl
    rw [hinsert, ih, get?_insert, lastValue_cons, Option.or_assoc]
    by_cases h : key = e.1
    · rw [if_pos h, if_pos h]
      rfl
    · rw [if_neg h, if_neg h]
      rfl

theorem ofList_concat (entries : List (Text × α)) (e : Text × α) :
    ofList (entries ++ [e]) = (ofList entries).insert e.1 e.2 := List.foldl_append

theorem get?_ofList (entries : List (Text × α)) (key : Text) :
    (ofList entries).get? key = lastValue key entries := by
  have h := get?_insertAll_eq_lastValue ∅ entries key
  rw [get?_empty, Option.or_none] at h
  exact h

/-- Where both maps have a key, the second one counts. -/
theorem get?_merge (m other : KeyMap α) (key : Text) :
    (m.merge other).get? key = (other.get? key).or (m.get? key) :=
  get?_insertAll other.increasing m key

@[simp] theorem merge_empty (m : KeyMap α) : m.merge ∅ = m := rfl

theorem get?_eq_some_iff {m : KeyMap α} {key : Text} {value : α} :
    m.get? key = some value ↔ (key, value) ∈ m.entries :=
  lookup_eq_some_iff m.increasing

theorem increasing_keys (m : KeyMap α) : m.keys.Pairwise (· < ·) := List.pairwise_map.2 m.increasing

theorem nodup_keys (m : KeyMap α) : m.keys.Nodup := by
  refine m.increasing_keys.imp ?_
  rintro key _ hlt rfl
  exact List.lt_irrefl key hlt

theorem length_keys (m : KeyMap α) : m.keys.length = m.size := List.length_map _

theorem mem_keys_iff {m : KeyMap α} {key : Text} : key ∈ m.keys ↔ (m.get? key).isSome = true := by
  unfold keys get?
  induction m.entries with
  | nil => simp [lookup]
  | cons e rest ih =>
    obtain ⟨k, a⟩ := e
    simp only [List.map_cons, List.mem_cons, lookup, ih]
    by_cases h : key = k <;> simp [h]

/-- Maps with the same look-ups are equal. -/
theorem ext_get? {m n : KeyMap α} (h : ∀ key, m.get? key = n.get? key) : m = n := by
  obtain ⟨l, hl⟩ := m
  obtain ⟨l', hl'⟩ := n
  have : l = l' := eq_of_lookup_eq hl hl' h
  subst this
  rfl

/-- The map of a map's own entries is the map. -/
theorem ofList_entries (m : KeyMap α) : ofList m.entries = m := by
  refine ext_get? fun key => ?_
  have h := get?_insertAll m.increasing ∅ key
  rw [get?_empty, Option.or_none] at h
  exact h

@[simp] theorem empty_merge (m : KeyMap α) : (∅ : KeyMap α).merge m = m := m.ofList_entries

theorem merge_assoc (m n p : KeyMap α) : (m.merge n).merge p = m.merge (n.merge p) :=
  ext_get? fun key => by rw [get?_merge, get?_merge, get?_merge, get?_merge, Option.or_assoc]

@[simp] theorem merge_self (m : KeyMap α) : m.merge m = m :=
  ext_get? fun key => by rw [get?_merge, Option.or_self]

end KeyMap

/-! ### Rule sets -/

/-- The source texts of a key. -/
inductive Rule where
  | one (source : Text)
  | many (sources : List Text)
deriving DecidableEq, Repr

namespace Rule

def alternatives : Rule → List Text
  | one source => [source]
  | many sources => sources

end Rule

/-- A rule for each of a set of keys. -/
abbrev RuleSet := KeyMap Rule

end TextGrammar
