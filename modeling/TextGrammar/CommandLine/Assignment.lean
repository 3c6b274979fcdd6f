import Mathlib.Data.Nat.Digits.Defs
import TextGrammar.CommandLine.Basic

/-!
# TextGrammar.CommandLine.Assignment — the arguments as flags with values

A flag and the argument behind it are an assignment, whatever that argument looks like.  Arguments are
assignments one after the other up to the first place where no good one begins; what stands there settles
the answer (`Settles`).  Without such a place each option has the value of its last assignment
(`Options.Takes`).  None of this says how arguments are read.
-/

namespace TextGrammar.CommandLine

/-- The text is decimal digits of the number, at least one, behind a plus sign or none. -/
def Numeral (value : Text) (n : Nat) : Prop :=
  ∃ digits, (value = digits ∨ value = '+' :: digits) ∧ digits ≠ [] ∧
    (∀ c ∈ digits, c.isDigit = true) ∧ n = Nat.ofDigits 10 (digits.reverse.map digitValue)

/-- The value of the flag is a number. -/
def Flag.IsNumeric (flag : Flag) : Prop := flag = .seed ∨ flag = .count

/-- A flag and the argument behind it. -/
structure Assignment where
  flag : Flag
  value : Text
deriving DecidableEq, Repr

namespace Assignment

def arguments (a : Assignment) : List Text := [a.flag.text, a.value]

/-- A flag for a number has a number of 64 bits. -/
def Good (a : Assignment) : Prop := a.flag.IsNumeric → ∃ n, Numeral a.value n ∧ n ≤ 2 ^ 64 - 1

def written (as : List Assignment) : List Text := as.flatMap arguments

def lastValue? (flag : Flag) (as : List Assignment) : Option Text :=
  (as.filter fun a => a.flag = flag).getLast?.map value

variable {a : Assignment} {as bs : List Assignment} {flag : Flag}

theorem written_cons (a : Assignment) (as : List Assignment) :
    written (a :: as) = a.flag.text :: a.value :: written as := rfl

theorem lastValue?_singleton (flag : Flag) (a : Assignment) :
    lastValue? flag [a] = if a.flag = flag then some a.value else none := by
  by_cases h : a.flag = flag <;> simp [lastValue?, h]

theorem lastValue?_append (flag : Flag) (as bs : List Assignment) :
    lastValue? flag (as ++ bs) = (lastValue? flag bs).or (lastValue? flag as) := by
  unfold lastValue?
  rw [List.filter_append, List.getLast?_append, Option.map_or]

theorem lastValue?_cons (flag : Flag) (a : Assignment) (as : List Assignment) :
    lastValue? flag (a :: as) = (lastValue? flag as).or (lastValue? flag [a]) :=
  lastValue?_append flag [a] as

theorem isSome_lastValue? (h : ∃ a ∈ as, a.flag = flag) : (lastValue? flag as).isSome = true := by
  obtain ⟨a, ha, rfl⟩ := h
  rw [lastValue?, Option.isSome_map, List.getLast?_isSome]
  have hmem : a ∈ as.filter fun b => b.flag = a.flag := List.mem_filter.2 ⟨ha, by simp⟩
  exact List.ne_nil_of_mem hmem

/-- An assignment to a flag that is assigned to again does not count. -/
theorem lastValue?_cons_of_later (h : ∃ b ∈ as, b.flag = a.flag) (flag : Flag) :
    lastValue? flag (a :: as) = lastValue? flag as := by
  rw [lastValue?_cons, lastValue?_singleton]
  by_cases hflag : a.flag = flag
  · obtain ⟨value, hvalue⟩ := Option.isSome_iff_exists.1 (isSome_lastValue? h)
    rw [← hflag, hvalue, Option.some_or]
  · rw [if_neg hflag, Option.or_none]

end Assignment

open Assignment

/-- The options have the values of the last assignments, and are left as they are by default without. -/
structure Options.Takes (o : Options) (as : List Assignment) : Prop where
  rules : o.rules = lastValue? .rules as
  origin : o.origin = (lastValue? .origin as).getD "#origin#".toList
  seed : (lastValue? .seed as = none ∧ o.seed = none) ∨
    ∃ value n, lastValue? .seed as = some value ∧ o.seed = some n ∧ Numeral value n.toNat
  count : (lastValue? .count as = none ∧ o.count = 1) ∨
    ∃ value, lastValue? .count as = some value ∧ Numeral value o.count

/-- The arguments begin with a good assignment. -/
def BeginsGood (arguments : List Text) : Prop :=
  ∃ (a : Assignment) (rest : List Text), a.Good ∧ arguments = a.arguments ++ rest

/-- What arguments that do not begin with a good assignment are answered with. -/
inductive Settles : List Text → Except ArgumentError Request → Prop
  | help {argument : Text} {rest : List Text}
    (h : argument = "--help".toList ∨ argument = "-h".toList) : Settles (argument :: rest) (.ok .help)
  | unknown {argument : Text} {rest : List Text}
    (help : argument ≠ "--help".toList ∧ argument ≠ "-h".toList)
    (flag : ∀ flag : Flag, argument ≠ flag.text) :
    Settles (argument :: rest) (.error (.unknown argument))
  /-- A flag in the last place has no value. -/
  | last (flag : Flag) : Settles [flag.text] (.error (.unknown flag.text))
  | notInteger {flag : Flag} {value : Text} {rest : List Text} (numeric : flag.IsNumeric)
    (h : ∀ n ≤ 2 ^ 64 - 1, ¬ Numeral value n) :
    Settles (flag.text :: value :: rest) (.error (.notInteger flag value))

end TextGrammar.CommandLine
