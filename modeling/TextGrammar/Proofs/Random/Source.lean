import Mathlib.Algebra.Order.Floor.Div
import Mathlib.Order.Interval.Finset.Nat
import TextGrammar.Random.Source

/-!
# TextGrammar.Proofs.Random — what sources and generators answer

A source is asked one question after the other, and `Source.after` is the source behind some of them.
A source repeats indices for given bounds if its answers are congruent to them, whatever numbers it
answers with (`Source.Repeats`).  One question is taken off at a time (`Source.repeats_cons`), and a
table repeats what it lists (`Source.table_repeats`).

An index below a bound is the high half of a product, and a number is accepted by the low half.  The
numbers accepted for an index are those whose product with the bound lies in an interval
(`Generator.accepts_index_iff`), and as the interval is a multiple of the bound long, there are as many of
them for each index (`Generator.card_accepted`).  A draw takes the first number of the stream that is
accepted; as the stream repeats, looking through one period of it is enough
(`Generator.below?_eq_some_iff`).
-/

namespace TextGrammar

namespace Source

/-- The source behind questions for indices below given bounds. -/
def after (s : Source) (bounds : List Nat) : Source := bounds.foldl (fun s bound => (s.ask bound).2) s

theorem after_append (s : Source) (bounds bounds' : List Nat) :
    s.after (bounds ++ bounds') = (s.after bounds).after bounds' :=
  List.foldl_append

/-- Asked for indices below the bounds in turn, the source answers each time with a number that is
congruent to the index modulo the bound. -/
def Repeats (s : Source) (bounds indices : List Nat) : Prop :=
  ∀ (j : Nat) {bound index : Nat}, bounds[j]? = some bound → indices[j]? = some index →
    ((s.after (bounds.take j)).ask bound).1 % bound = index % bound

theorem repeats_nil (s : Source) : s.Repeats [] [] := by
  intro j bound index hb
  cases hb

theorem repeats_cons {s : Source} {bound index : Nat} {bounds indices : List Nat} :
    s.Repeats (bound :: bounds) (index :: indices) ↔
      (s.ask bound).1 % bound = index % bound ∧ (s.ask bound).2.Repeats bounds indices := by
  constructor
  · intro h
    exact ⟨h 0 rfl rfl, fun j => h (j + 1)⟩
  · rintro ⟨hfirst, hrest⟩ j b i hb hi
    cases j with
    | zero =>
      obtain rfl := Option.some.inj hb
      obtain rfl := Option.some.inj hi
      exact hfirst
    | succ j => exact hrest j hb hi

/-! ### Tables -/

theorem after_ruled (answer : List Nat → Nat) (asked bounds : List Nat) :
    (ruled answer asked).after bounds = ruled answer (bounds.reverse ++ asked) := by
  induction bounds generalizing asked with
  | nil => rfl
  | cons b bounds ih =>
    rw [List.reverse_cons, List.append_assoc]
    exact ih (b :: asked)

/-- **A table repeats what it lists**, for whatever bounds. -/
theorem table_repeats (bounds indices : List Nat) : (table indices).Repeats bounds indices := by
  intro j bound index hb hi
  obtain ⟨hj, -⟩ := List.getElem?_eq_some_iff.1 hb
  have hasked : (bound :: ((bounds.take j).reverse ++ [])).length - 1 = j := by
    rw [List.length_cons, List.append_nil, List.length_reverse, List.length_take]
    omega
  have hanswer : (((table indices).after (bounds.take j)).ask bound).1 = index := by
    rw [table, ofRule, after_ruled]
    show indices.getD ((bound :: ((bounds.take j).reverse ++ [])).length - 1) 0 = index
    rw [hasked, List.getD_eq_getElem?_getD, hi, Option.getD_some]
  rw [hanswer]

end Source

namespace Generator

variable {bound v i : Nat}

/-! ### Numbers and indices -/

theorem number_lt (key : ChaCha.Key) (n : Nat) : number key n < UInt64.size := by
  have h (low high : UInt32) : low.toNat + UInt32.size * high.toNat < UInt64.size := by
    have hlow := low.toNat_lt
    have hhigh := high.toNat_lt
    simp only [UInt32.size, UInt64.size]
    omega
  exact h _ _

/-- **An index lies below its bound**: a number is less than the size that its product is divided by. -/
theorem index_lt (hbound : 1 ≤ bound) (hv : v < UInt64.size) : index bound v < bound := by
  refine Nat.div_lt_of_lt_mul ?_
  exact Nat.mul_lt_mul_of_pos_right hv hbound

/-! ### Numbers accepted for an index -/

/-- How many numbers are accepted for each index: two to the number of times that the bound can be doubled
within 64 bits. -/
def share (bound : Nat) : Nat := 2 ^ (63 - bound.log2)

theorem zone_add_one (hbound : 1 ≤ bound) : zone bound + 1 = bound * share bound := by
  have hpos : 0 < bound * share bound := Nat.mul_pos hbound (Nat.two_pow_pos _)
  have hzone : zone bound = bound * share bound - 1 := rfl
  omega

theorem mul_share_le (hbound : 1 ≤ bound) (hsize : bound < UInt64.size) :
    bound * share bound ≤ UInt64.size := by
  have hlog : bound.log2 < 64 := (Nat.log2_lt (by omega)).2 hsize
  calc bound * share bound
      ≤ 2 ^ (bound.log2 + 1) * 2 ^ (63 - bound.log2) :=
        Nat.mul_le_mul_right _ (Nat.le_of_lt Nat.lt_log2_self)
    _ = 2 ^ (bound.log2 + 1 + (63 - bound.log2)) := (Nat.pow_add _ _ _).symm
    _ = 2 ^ 64 := by rw [show bound.log2 + 1 + (63 - bound.log2) = 64 by omega]
    _ = UInt64.size := by decide

/-- **A number is accepted for an index** if its product with the bound lies in an interval that begins with
the index. -/
theorem accepts_index_iff (hbound : 1 ≤ bound) (hsize : bound < UInt64.size) :
    accepts bound v = true ∧ index bound v = i ↔
      i * UInt64.size ≤ v * bound ∧ v * bound < i * UInt64.size + bound * share bound := by
  have hzone := zone_add_one hbound
  have hshare := mul_share_le hbound hsize
  rw [accepts, index, decide_eq_true_iff]
  simp only [UInt64.size] at hshare ⊢
  omega

/-- The multiples of a number in an interval that is a multiple of it long. -/
theorem mul_mem_interval_iff (hbound : 1 ≤ bound) (x m : Nat) :
    x ≤ v * bound ∧ v * bound < x + bound * m ↔
      v ∈ Finset.Ico (x ⌈/⌉ bound) (x ⌈/⌉ bound + m) := by
  have hle (u : Nat) : x ⌈/⌉ bound ≤ u ↔ x ≤ u * bound := by
    rw [ceilDiv_le_iff_le_mul hbound, Nat.mul_comm]
  rw [Finset.mem_Ico, hle]
  refine and_congr_right fun _ => ?_
  by_cases hv : v < m
  · have := Nat.mul_lt_mul_of_pos_right hv hbound
    have hmul : m * bound = bound * m := Nat.mul_comm _ _
    omega
  · obtain ⟨u, rfl⟩ := Nat.exists_eq_add_of_le (Nat.not_lt.1 hv)
    have hmul : (m + u) * bound = bound * m + u * bound := by rw [Nat.add_mul, Nat.mul_comm m]
    have hu : u < x ⌈/⌉ bound ↔ u * bound < x := by rw [← Nat.not_le, hle, Nat.not_le]
    omega

/-- **Each index below a bound has the same share of the numbers.** -/
theorem card_accepted (hbound : 1 ≤ bound) (hsize : bound < UInt64.size) (hi : i < bound) :
    ((Finset.range UInt64.size).filter fun v => accepts bound v = true ∧ index bound v = i).card =
      share bound := by
  have hnumbers :
      (Finset.range UInt64.size).filter (fun v => accepts bound v = true ∧ index bound v = i) =
        Finset.Ico (i * UInt64.size ⌈/⌉ bound) (i * UInt64.size ⌈/⌉ bound + share bound) := by
    ext v
    rw [Finset.mem_filter, accepts_index_iff hbound hsize, mul_mem_interval_iff hbound, Finset.mem_range]
    refine and_iff_right_of_imp fun hv => ?_
    -- a product in the interval of an index below the bound is no more than the bound times the size
    obtain ⟨-, hlt⟩ := (mul_mem_interval_iff hbound _ _).2 hv
    have hshare := mul_share_le hbound hsize
    have hindex : (i + 1) * UInt64.size ≤ bound * UInt64.size := Nat.mul_le_mul_right _ hi
    rw [Nat.succ_mul, Nat.mul_comm bound] at hindex
    exact Nat.lt_of_mul_lt_mul_right (by omega : v * bound < UInt64.size * bound)
  rw [hnumbers, Nat.card_Ico, Nat.add_sub_cancel_left]

/-! ### The first number that is accepted -/

/-- The first number accepted for a bound, from a position of the stream on, stands at `n`. -/
structure FirstAccepted (key : ChaCha.Key) (bound start n : Nat) : Prop where
  le : start ≤ n
  accepted : accepts bound (number key n) = true
  rejected : ∀ m, start ≤ m → m < n → accepts bound (number key m) = false

/-- The stream repeats. -/
theorem number_add_period (key : ChaCha.Key) (n : Nat) : number key (n + period) = number key n := by
  have hplace : (n + period) % 8 = n % 8 := by
    rw [period, Nat.add_mul_mod_self_left]
  have hblock : UInt64.ofNat ((n + period) / 8) = UInt64.ofNat (n / 8) := by
    rw [period, Nat.add_mul_div_left _ _ (by decide)]
    refine UInt64.toNat_inj.1 ?_
    rw [UInt64.toNat_ofNat', UInt64.toNat_ofNat']
    exact Nat.add_mod_right _ _
  unfold number
  simp only [hplace, hblock]

theorem seek_eq_find? (key : ChaCha.Key) (bound tries n : Nat) : seek key bound tries n =
    ((List.range' n tries).find? fun m => accepts bound (number key m)).map fun m =>
      (index bound (number key m), m + 1) := by
  induction tries generalizing n with
  | zero => rfl
  | succ tries ih =>
    rw [seek, List.range'_succ, List.find?_cons, ih]
    cases accepts bound (number key n) <;> rfl

variable {g g' : Generator}

/-- **A draw takes the first number that is accepted**, wherever in the stream that is. -/
theorem below?_eq_some_iff : g.below? bound = some (i, g') ↔
    ∃ n, FirstAccepted g.key bound g.taken n ∧ i = index bound (number g.key n) ∧
      g' = { g with taken := n + 1 } := by
  rw [below?, seek_eq_find?, Option.map_map, Option.map_eq_some_iff]
  simp only [List.find?_range'_eq_some, List.mem_range'_1, Bool.not_eq_true', Function.comp_apply,
    Prod.mk.injEq]
  constructor
  · rintro ⟨n, ⟨haccepted, ⟨hle, -⟩, hrejected⟩, hi, hg⟩
    exact ⟨n, ⟨hle, haccepted, hrejected⟩, hi.symm, hg.symm⟩
  · rintro ⟨n, ⟨hle, haccepted, hrejected⟩, rfl, rfl⟩
    refine ⟨n, ⟨haccepted, ⟨hle, ?_⟩, hrejected⟩, rfl, rfl⟩
    -- a period earlier the stream has the same number
    by_contra hlt
    obtain ⟨m, rfl⟩ := Nat.exists_eq_add_of_le' (Nat.le_of_add_left_le (Nat.not_lt.1 hlt))
    have hm := hrejected m (by omega) (Nat.lt_add_of_pos_right (by decide))
    rw [number_add_period] at haccepted
    rw [haccepted] at hm
    cases hm

/-- A draw that completes gives an index below the bound. -/
theorem below?_lt (hbound : 1 ≤ bound) (h : g.below? bound = some (i, g')) : i < bound := by
  obtain ⟨n, -, rfl, -⟩ := below?_eq_some_iff.1 h
  exact index_lt hbound (number_lt _ _)

/-- A draw does not complete only if no number is ever accepted. -/
theorem below?_eq_none_iff : g.below? bound = none ↔
    ∀ n, g.taken ≤ n → accepts bound (number g.key n) = false := by
  constructor
  · intro hnone n hn
    by_contra haccepted
    have h : ∃ n, g.taken ≤ n ∧ accepts bound (number g.key n) = true :=
      ⟨n, hn, Bool.eq_true_of_not_eq_false haccepted⟩
    -- the least accepted position would have been found
    obtain ⟨hle, haccepted⟩ := Nat.find_spec h
    have hsome := below?_eq_some_iff.2 ⟨Nat.find h, ⟨hle, haccepted, fun m hm hlt => ?_⟩, rfl, rfl⟩
    · rw [hnone] at hsome
      cases hsome
    · exact Bool.eq_false_of_not_eq_true fun hm' => Nat.find_min h hlt ⟨hm, hm'⟩
  · intro hrejected
    cases hbelow : g.below? bound with
    | none => rfl
    | some drawn =>
      obtain ⟨n, hn, -⟩ := below?_eq_some_iff.1 hbelow
      have := hn.accepted
      rw [hrejected n hn.le] at this
      cases this

/-! ### Draws one after the other -/

/-- Draws for indices below bounds, one after the other, all of which complete. -/
inductive Draws : Generator → List Nat → List Nat → Generator → Prop
  | nil {g : Generator} : Draws g [] [] g
  | cons {g g₁ h : Generator} {bound i : Nat} {bounds indices : List Nat}
    (first : g.below? bound = some (i, g₁)) (rest : Draws g₁ bounds indices h) :
    Draws g (bound :: bounds) (i :: indices) h

theorem Draws.lt {bounds indices : List Nat} (h : g.Draws bounds indices g')
    (hbounds : ∀ b ∈ bounds, 1 ≤ b) : List.Forall₂ (· < ·) indices bounds := by
  induction h with
  | nil => exact .nil
  | cons first _ ih =>
    obtain ⟨hbound, hbounds⟩ := List.forall_mem_cons.1 hbounds
    exact .cons (below?_lt hbound first) (ih hbounds)

end Generator

end TextGrammar
