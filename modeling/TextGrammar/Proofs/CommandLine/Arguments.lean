import Mathlib.Data.List.Induction
import Mathlib.Tactic.SplitIfs
import TextGrammar.CommandLine.Assignment

/-!
# TextGrammar.Proofs.CommandLine.Arguments — reading the arguments

Arguments are read as assignments, one after the other (`Options.read_written`), up to the first place where
no good one begins, and what stands there settles the answer (`read_of_settles`).  So two lists of
assignments with the same last values are read alike, whatever follows them (`read_congr`).
-/

namespace TextGrammar.CommandLine

open Assignment

/-! ### Flags -/

theorem Flag.ofText?_text (flag : Flag) : Flag.ofText? flag.text = some flag := by
  cases flag <;> rfl

theorem Flag.eq_text_of_ofText? {argument : Text} {flag : Flag} (h : Flag.ofText? argument = some flag) :
    argument = flag.text := by
  have htext := List.find?_some h
  exact (of_decide_eq_true htext).symm

theorem Flag.mem_all (flag : Flag) : flag ∈ all := by
  cases flag <;> decide

theorem Flag.ofText?_eq_none_iff {argument : Text} :
    Flag.ofText? argument = none ↔ ∀ flag : Flag, argument ≠ flag.text := by
  rw [ofText?, List.find?_eq_none]
  constructor
  · intro h flag heq
    exact h flag flag.mem_all (decide_eq_true heq.symm)
  · intro h flag _ heq
    exact h flag (of_decide_eq_true heq).symm

theorem isHelp_iff {argument : Text} :
    isHelp argument = true ↔ argument = "--help".toList ∨ argument = "-h".toList := by
  rw [isHelp, Bool.or_eq_true, decide_eq_true_eq, decide_eq_true_eq]

theorem isHelp_text (flag : Flag) : isHelp flag.text = false := by
  cases flag <;> decide

/-! ### Numbers -/

/-- Digits have the value that is read from left to right. -/
theorem decimalValue_eq_ofDigits (digits : Text) :
    decimalValue digits = Nat.ofDigits 10 (digits.reverse.map digitValue) := by
  induction digits using List.reverseRecOn with
  | nil => rfl
  | append_singleton digits c ih =>
    have hlast : decimalValue (digits ++ [c]) = decimalValue digits * 10 + digitValue c := by
      simp [decimalValue]
    rw [hlast, ih, List.reverse_append, List.reverse_singleton, List.singleton_append, List.map_cons,
      Nat.ofDigits_cons]
    omega

theorem dropPlus_cases (value : Text) : value = dropPlus value ∨ value = '+' :: dropPlus value := by
  unfold dropPlus
  split
  · exact .inr rfl
  · exact .inl rfl

theorem dropPlus_of_digits {digits : Text} (h : ∀ c ∈ digits, c.isDigit = true) :
    dropPlus digits = digits := by
  unfold dropPlus
  split
  · exact absurd (h '+' List.mem_cons_self) (by decide)
  · rfl

theorem readInteger?_eq_some_iff {value : Text} {n : Nat} :
    readInteger? value = some n ↔ Numeral value n ∧ n ≤ 2 ^ 64 - 1 := by
  have hsize : UInt64.size = 2 ^ 64 := rfl
  constructor
  · intro h
    unfold readInteger? at h
    dsimp only at h
    split_ifs at h with hdigits
    obtain ⟨hne, hall, hlt⟩ := hdigits
    obtain rfl := Option.some.inj h
    refine ⟨⟨dropPlus value, dropPlus_cases value, hne, List.all_eq_true.1 hall,
      decimalValue_eq_ofDigits _⟩, ?_⟩
    omega
  · rintro ⟨⟨digits, hvalue, hne, hall, hn⟩, hle⟩
    have hdrop : dropPlus value = digits := by
      rcases hvalue with rfl | rfl
      · exact dropPlus_of_digits hall
      · rfl
    rw [← decimalValue_eq_ofDigits] at hn
    unfold readInteger?
    dsimp only
    rw [hdrop, if_pos ⟨hne, List.all_eq_true.2 hall, by omega⟩, hn]

theorem readInteger?_eq_none_iff {value : Text} :
    readInteger? value = none ↔ ∀ n ≤ 2 ^ 64 - 1, ¬ Numeral value n := by
  rw [Option.eq_none_iff_forall_ne_some]
  refine forall_congr' fun n => ?_
  rw [ne_eq, readInteger?_eq_some_iff, not_and, imp_not_comm]

/-! ### Assignments -/

variable {o : Options} {a : Assignment} {as bs : List Assignment} {rest : List Text}
  {answer : Except ArgumentError Request}

def Options.after (o : Options) (as : List Assignment) : Options where
  rules := (lastValue? .rules as).or o.rules
  origin := (lastValue? .origin as).getD o.origin
  seed := ((lastValue? .seed as).map fun v => UInt64.ofNat (decimalValue (dropPlus v))).or o.seed
  count := ((lastValue? .count as).map fun v => decimalValue (dropPlus v)).getD o.count

theorem Options.after_cons (o : Options) (a : Assignment) (as : List Assignment) :
    o.after (a :: as) = (o.after [a]).after as := by
  simp only [after, lastValue?_cons _ a as, Option.or_assoc, Option.getD_or, Option.map_or]

theorem Options.after_congr (h : ∀ flag, lastValue? flag as = lastValue? flag bs) :
    o.after as = o.after bs := by
  simp only [after, h]

/-- A number that is read is the value of the digits. -/
theorem eq_of_readInteger? {value : Text} {n : Nat} (h : readInteger? value = some n) :
    n = decimalValue (dropPlus value) := by
  unfold readInteger? at h
  dsimp only at h
  split_ifs at h
  exact (Option.some.inj h).symm

theorem readInteger?_of_good (h : a.Good) (hnumeric : a.flag.IsNumeric) :
    readInteger? a.value = some (decimalValue (dropPlus a.value)) := by
  obtain ⟨n, hn⟩ := h hnumeric
  have hread := readInteger?_eq_some_iff.2 hn
  rw [hread, eq_of_readInteger? hread]

/-- A good assignment can be made. -/
theorem Options.set_of_good (o : Options) (h : a.Good) : o.set a.value a.flag = .ok (o.after [a]) := by
  obtain ⟨flag, value⟩ := a
  cases flag with
  | rules => rfl
  | origin => rfl
  | seed =>
    rw [set, readInteger?_of_good h (.inl rfl)]
    rfl
  | count =>
    rw [set, readInteger?_of_good h (.inr rfl)]
    rfl

/-- A flag with a value is read as an assignment. -/
theorem Options.read_cons_cons (o : Options) (flag : Flag) (value : Text) (rest : List Text) :
    o.read (flag.text :: value :: rest) = o.set value flag >>= fun o => o.read rest := by
  rw [read, isHelp_text, if_neg (by decide), Flag.ofText?_text]

/-- Good assignments are made one after the other. -/
theorem Options.read_written (o : Options) (h : ∀ a ∈ as, a.Good) (rest : List Text) :
    o.read (written as ++ rest) = (o.after as).read rest := by
  induction as generalizing o with
  | nil => rfl
  | cons a as ih =>
    obtain ⟨ha, has⟩ := List.forall_mem_cons.1 h
    rw [written_cons, List.cons_append, List.cons_append, read_cons_cons, set_of_good o ha,
      after_cons o a as]
    exact ih (o.after [a]) has

/-- **Only the last values count**: assignments with the same last values are read alike. -/
theorem Options.read_congr (o : Options) (has : ∀ a ∈ as, a.Good) (hbs : ∀ b ∈ bs, b.Good)
    (h : ∀ flag, lastValue? flag as = lastValue? flag bs) (rest : List Text) :
    o.read (written as ++ rest) = o.read (written bs ++ rest) := by
  rw [o.read_written has, o.read_written hbs, after_congr h]

theorem good_of_lastValue? (h : ∀ a ∈ as, a.Good) {flag : Flag} {value : Text}
    (hvalue : lastValue? flag as = some value) : Good ⟨flag, value⟩ := by
  obtain ⟨a, ha, rfl⟩ := Option.map_eq_some_iff.1 hvalue
  obtain ⟨hmem, hflag⟩ := List.mem_filter.1 (List.mem_of_getLast? ha)
  obtain rfl := of_decide_eq_true hflag
  exact h a hmem

/-- What the options have after good assignments is what these say. -/
theorem Options.takes_after (h : ∀ a ∈ as, a.Good) : (after {} as).Takes as where
  rules := Option.or_none
  origin := rfl
  seed := by
    cases hvalue : lastValue? .seed as with
    | none => exact .inl ⟨rfl, by simp [after, hvalue]⟩
    | some value =>
      have hread := readInteger?_of_good (good_of_lastValue? h hvalue) (.inl rfl)
      obtain ⟨hnumeral, hle⟩ := readInteger?_eq_some_iff.1 hread
      -- a good numeral fits a word, so the seed keeps its number
      have hlt : decimalValue (dropPlus value) < UInt64.size := Nat.lt_of_le_pred (by decide) hle
      refine .inr ⟨value, UInt64.ofNat (decimalValue (dropPlus value)), rfl, by simp [after, hvalue], ?_⟩
      rw [UInt64.toNat_ofNat_of_lt' hlt]
      exact hnumeral
  count := by
    cases hvalue : lastValue? .count as with
    | none => exact .inl ⟨rfl, by simp [after, hvalue]⟩
    | some value =>
      have hread := readInteger?_of_good (good_of_lastValue? h hvalue) (.inr rfl)
      refine .inr ⟨value, rfl, ?_⟩
      have hcount : (after {} as).count = decimalValue (dropPlus value) := by simp [after, hvalue]
      rw [hcount]
      exact (readInteger?_eq_some_iff.1 hread).1

/-! ### The first place without a good assignment -/

theorem Options.read_of_settles (o : Options) (h : Settles rest answer) : o.read rest = answer := by
  cases h with
  | @help argument rest h =>
    have hhelp := isHelp_iff.2 h
    cases rest <;> rw [read, if_pos hhelp]
  | @unknown argument rest help flag =>
    have hhelp : ¬ isHelp argument = true := by
      rw [isHelp_iff]
      exact not_or.2 help
    cases rest with
    | nil => rw [read, if_neg hhelp]
    | cons value rest => rw [read, if_neg hhelp, Flag.ofText?_eq_none_iff.2 flag]
  | last flag => rw [read, isHelp_text, if_neg (by decide)]
  | @notInteger flag value rest numeric h =>
    have hread := readInteger?_eq_none_iff.2 h
    rcases numeric with rfl | rfl
    · rw [read_cons_cons, set, hread]
      rfl
    · rw [read_cons_cons, set, hread]
      rfl

theorem exists_settles (hne : rest ≠ []) (h : ¬ BeginsGood rest) : ∃ answer, Settles rest answer := by
  obtain ⟨argument, rest, rfl⟩ := List.exists_cons_of_ne_nil hne
  by_cases hhelp : isHelp argument = true
  · exact ⟨_, .help (isHelp_iff.1 hhelp)⟩
  cases hflag : Flag.ofText? argument with
  | none => exact ⟨_, .unknown (not_or.1 (mt isHelp_iff.2 hhelp)) (Flag.ofText?_eq_none_iff.1 hflag)⟩
  | some flag =>
    obtain rfl := Flag.eq_text_of_ofText? hflag
    cases rest with
    | nil => exact ⟨_, .last flag⟩
    | cons value rest =>
      have hbad : ¬ Good ⟨flag, value⟩ := fun hgood => h ⟨⟨flag, value⟩, rest, hgood, rfl⟩
      obtain ⟨hnumeric, hnone⟩ := Classical.not_imp.1 hbad
      exact ⟨_, .notInteger hnumeric fun n hle hn => hnone ⟨n, hn, hle⟩⟩

/-- Arguments are good assignments up to where none begins: by induction on their number. -/
theorem exists_written (arguments : List Text) :
    ∃ as rest, (∀ a ∈ as, a.Good) ∧ arguments = written as ++ rest ∧ ¬ BeginsGood rest := by
  induction hn : arguments.length using Nat.strongRecOn generalizing arguments with
  | ind n ih =>
    by_cases hbegins : BeginsGood arguments
    · obtain ⟨a, more, ha, rfl⟩ := hbegins
      have hlt : more.length < n := by
        rw [← hn, List.length_append]
        simp [Assignment.arguments]
      obtain ⟨as, rest, has, rfl, hrest⟩ := ih more.length hlt more rfl
      refine ⟨a :: as, rest, List.forall_mem_cons.2 ⟨ha, has⟩, ?_, hrest⟩
      rw [written_cons]
      rfl
    · exact ⟨[], arguments, fun a ha => absurd ha List.not_mem_nil, rfl, hbegins⟩

/-- The words for a value that is no integer name the flag and the value. -/
theorem ArgumentError.names_notInteger (flag : Flag) (value : Text) :
    flag.text <+: (notInteger flag value).message ∧ value <:+: (notInteger flag value).message := by
  have hfront : flag.text <+: flag.text ++ (" must be an integer, got '".toList ++ (value ++ ['\''])) :=
    List.prefix_append _ _
  rw [← List.append_assoc, ← List.append_assoc] at hfront
  exact ⟨hfront, List.infix_append _ value _⟩

/-- **Arguments are read from left to right as assignments.**  They are good assignments up to a place where
none begins, and what stands there settles the answer, whatever is in front of it and behind it.  Without such
a place each option has the value of its last assignment.  So assignments to different flags may change
places, and an assignment to a flag that is assigned to again may be left out.  The words for an error name
what is wrong. -/
theorem readArguments_assignments :
    (∀ arguments, ∃ as rest,
      (∀ a ∈ as, a.Good) ∧ arguments = written as ++ rest ∧ ¬ BeginsGood rest) ∧
    (∀ as rest, (∀ a ∈ as, a.Good) → rest ≠ [] → ¬ BeginsGood rest →
      ∀ answer, readArguments (written as ++ rest) = answer ↔ Settles rest answer) ∧
    (∀ as, (∀ a ∈ as, a.Good) → ∃ o, readArguments (written as) = .ok (.expand o) ∧ o.Takes as) ∧
    (∀ as bs rest, (∀ a ∈ as, a.Good) → (∀ b ∈ bs, b.Good) →
      (∀ flag, as.filter (·.flag = flag) = bs.filter (·.flag = flag)) →
      readArguments (written as ++ rest) = readArguments (written bs ++ rest)) ∧
    (∀ as a bs rest, (∀ b ∈ as ++ a :: bs, b.Good) → (∃ b ∈ bs, b.flag = a.flag) →
      readArguments (written (as ++ a :: bs) ++ rest) = readArguments (written (as ++ bs) ++ rest)) ∧
    (∀ argument, argument <:+ (ArgumentError.unknown argument).message) ∧
    ∀ flag value, flag.text <+: (ArgumentError.notInteger flag value).message ∧
      value <:+: (ArgumentError.notInteger flag value).message := by
  refine ⟨exists_written, ?_, ?_, ?_, ?_, fun argument => List.suffix_append _ _, ?_⟩
  · intro as rest has hne hrest answer
    -- something settles the rest, and reading gives whatever settles it; hence both directions
    obtain ⟨settled, hsettled⟩ := exists_settles hne hrest
    have hread : ∀ answer, Settles rest answer → readArguments (written as ++ rest) = answer := by
      intro answer h
      rw [readArguments, Options.read_written {} has, Options.read_of_settles _ h]
    constructor
    · rintro rfl
      rwa [hread settled hsettled]
    · exact hread answer
  · intro as has
    refine ⟨Options.after {} as, ?_, Options.takes_after has⟩
    have hread := Options.read_written {} has []
    rw [List.append_nil] at hread
    rw [readArguments, hread]
    rfl
  · intro as bs rest has hbs h
    -- only the last value of each flag is read off, and here even all values of a flag agree
    refine Options.read_congr {} has hbs (fun flag => ?_) rest
    rw [lastValue?, h flag]
    rfl
  · intro as a bs rest hgood hlater
    have hsub : ∀ b ∈ as ++ bs, b.Good := by
      intro b hb
      refine hgood b ?_
      rcases List.mem_append.1 hb with hb | hb
      · exact List.mem_append_left _ hb
      · exact List.mem_append_right _ (List.mem_cons_of_mem _ hb)
    refine Options.read_congr {} hgood hsub (fun flag => ?_) rest
    rw [lastValue?_append, lastValue?_append, lastValue?_cons_of_later hlater]
  · intro flag value
    exact ArgumentError.names_notInteger flag value

/-- A flag that is taken for a value, zeros in front of a number, and numbers at the limit of 64 bits.  The
number beyond it is refused before help is given. -/
theorem readArguments_assignments_limit :
    let seed : Assignment := ⟨.seed, "+0018446744073709551615".toList⟩
    let origin : Assignment := ⟨.origin, "--help".toList⟩
    let again : Assignment := ⟨.seed, "7".toList⟩
    let refused : List Text := ["--count".toList, "18446744073709551616".toList, "-h".toList]
    (∀ a ∈ [seed, origin, again], a.Good) ∧ ¬ BeginsGood refused ∧
      (∃ o, readArguments (written [seed, origin]) = .ok (.expand o) ∧ o.Takes [seed, origin]) ∧
      readArguments (written [seed, origin]) = readArguments (written [origin, seed]) ∧
      readArguments (written [seed, origin, again]) = readArguments (written [origin, again]) ∧
      readArguments (written [seed, origin] ++ refused) =
        .error (.notInteger .count "18446744073709551616".toList) := by
  intro seed origin again refused
  have hseed : seed.Good := fun _ => ⟨2 ^ 64 - 1, readInteger?_eq_some_iff.1 (by decide)⟩
  have horigin : origin.Good := fun h => by rcases h with h | h <;> cases h
  have hagain : again.Good := fun _ => ⟨7, readInteger?_eq_some_iff.1 (by decide)⟩
  have hall : ∀ a ∈ [seed, origin, again], a.Good := by simp [hseed, horigin, hagain]
  have htwo : ∀ a ∈ [seed, origin], a.Good := by simp [hseed, horigin]
  have htwo' : ∀ a ∈ [origin, seed], a.Good := by simp [hseed, horigin]
  have hbeyond : ∀ n ≤ 2 ^ 64 - 1, ¬ Numeral "18446744073709551616".toList n :=
    readInteger?_eq_none_iff.1 (by decide)
  have hrefused : ¬ BeginsGood refused := by
    rintro ⟨⟨flag, value⟩, rest, hgood, heq⟩
    -- the only flag written so is `--count`, which would need a number of 64 bits
    obtain ⟨hflag, hrest⟩ := List.cons.inj heq
    have hcount : Flag.ofText? flag.text = some .count := hflag ▸ Flag.ofText?_text .count
    rw [Flag.ofText?_text] at hcount
    obtain rfl := Option.some.inj hcount
    have hvalue : "18446744073709551616".toList = value := (List.cons.inj hrest).1
    obtain ⟨n, hn, hle⟩ := hgood (.inr rfl)
    exact hbeyond n hle (hvalue ▸ hn)
  obtain ⟨-, hsettled, htakes, hswap, hearlier, -⟩ := readArguments_assignments
  refine ⟨hall, hrefused, htakes _ htwo, ?_, ?_, ?_⟩
  · have h := hswap _ _ [] htwo htwo' fun flag => by cases flag <;> rfl
    rwa [List.append_nil, List.append_nil] at h
  · have h := hearlier [] seed [origin, again] [] hall ⟨again, by simp, rfl⟩
    rwa [List.append_nil, List.append_nil] at h
  · exact (hsettled _ refused htwo (List.cons_ne_nil _ _) hrefused _).2 (.notInteger (.inr rfl) hbeyond)

end TextGrammar.CommandLine
