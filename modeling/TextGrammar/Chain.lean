/-!
# TextGrammar.Chain — lists that are joined in one step

A chain is a list, known by what it becomes in front of other entries.  Joining two chains takes one
step however long they are, so nothing is copied where expansions stand inside one another.  Chains
with the same entries are equal (`Chain.ext`), and joining appends (`Chain.toList_append`).
-/

namespace TextGrammar

/-- A list of entries. -/
structure Chain (α : Type) where
  /-- The entries with others behind them. -/
  before : List α → List α
  /-- The others are only put behind. -/
  before_eq : ∀ rest, before rest = before [] ++ rest

namespace Chain

variable {α : Type}

def toList (t : Chain α) : List α := t.before []

/-- Entries in front of others.  Nothing is copied where there are no others. -/
def putBefore (entries : List α) : (rest : List α) → List α
  | [] => entries
  | rest => entries ++ rest

theorem putBefore_eq (entries rest : List α) : putBefore entries rest = entries ++ rest := by
  cases rest <;> simp [putBefore]

def ofList (entries : List α) : Chain α := ⟨putBefore entries, fun rest => putBefore_eq _ rest⟩

instance : EmptyCollection (Chain α) := ⟨⟨id, fun _ => rfl⟩⟩

instance : Append (Chain α) :=
  ⟨fun s t => ⟨fun rest => s.before (t.before rest), fun rest => by
    rw [s.before_eq, t.before_eq, s.before_eq (t.before []), List.append_assoc]⟩⟩

def join (chains : List (Chain α)) : Chain α := chains.foldr (· ++ ·) ∅

theorem ext {s t : Chain α} (h : s.toList = t.toList) : s = t := by
  cases s with
  | mk b hb =>
    cases t with
    | mk c hc =>
      have : b = c := funext fun rest => by
        rw [hb, hc]
        exact congrArg (· ++ rest) h
      subst this
      rfl

@[simp] theorem toList_empty : (∅ : Chain α).toList = [] := rfl

@[simp] theorem toList_ofList (entries : List α) : (ofList entries).toList = entries :=
  rfl

@[simp] theorem toList_append (s t : Chain α) : (s ++ t).toList = s.toList ++ t.toList :=
  s.before_eq (t.before [])

theorem ofList_nil : ofList ([] : List α) = ∅ := ext rfl

theorem ofList_append (entries rest : List α) :
    ofList (entries ++ rest) = ofList entries ++ ofList rest :=
  ext (toList_append (ofList entries) (ofList rest)).symm

theorem append_assoc (s t u : Chain α) : s ++ t ++ u = s ++ (t ++ u) := rfl

theorem toList_join (chains : List (Chain α)) :
    (join chains).toList = (chains.map toList).flatten := by
  induction chains with
  | nil => rfl
  | cons t ts ih =>
    rw [List.map_cons, List.flatten_cons, ← ih]
    exact toList_append t (join ts)

end Chain

end TextGrammar
