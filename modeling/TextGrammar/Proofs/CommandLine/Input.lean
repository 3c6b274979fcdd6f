import TextGrammar.Proofs.CommandLine.Lines
import TextGrammar.Proofs.RuleSet.Json

/-!
# TextGrammar.Proofs.CommandLine.Input — where the rules come from

What a run writes depends on its arguments only through what there is to expand, and on the rules only
through what has been loaded (`run_of_expand`).  A text is loaded alike from a file and from standard input,
unless it is blank (`readInput_eq_load`), and no rule set is written as a blank text.  Blank input holds no
rules, which is the same to a grammar as rules for no key (`expand_none`).
-/

namespace TextGrammar

/-- What is written for a rule set begins with a brace. -/
theorem RuleSet.all_isBlank_writeJson (rules : RuleSet) : rules.writeJson.all isBlank = false := rfl

namespace CommandLine

variable {arguments arguments' : List Text} {files files' : Files} {input : Option ByteArray}
  {clock clock' : UInt64} {o : Options} {s : Text}

/-! ### Standard input -/

theorem readInput_encodeText (s : Text) : readInput (encodeText s) =
    if s.all isBlank then .ok none else RuleSet.Format.json.read s >>= fun rules => .ok (some rules) := by
  rw [readInput, decodeText_encodeText]
  rfl

/-- A text that is not blank is loaded alike from a file and from standard input. -/
theorem readInput_eq_load {path : Text} (hformat : RuleSet.Format.ofPath? path = some .json)
    (hfile : files path = .ok (encodeText s)) (hs : s.all isBlank = false) :
    readInput (encodeText s) = RuleSet.load files path >>= fun rules => .ok (some rules) := by
  rw [readInput_encodeText, hs, RuleSet.load_of_ok hformat hfile, decodeText_encodeText]
  rfl

theorem readRules_of_path {path : Text} (hpath : o.rules = some path) :
    readRules o files input = RuleSet.load files path >>= fun rules => .ok (some rules) := by
  unfold readRules
  rw [hpath]
  rfl

theorem readRules_of_no_path (hpath : o.rules = none) (bytes : ByteArray) :
    readRules o files (some bytes) = readInput bytes := by
  unfold readRules
  rw [hpath]

/-! ### What is expanded -/

/-- To a grammar no rules are rules for no key. -/
theorem expand_none (nesting : Nat) (o : Options) (clock : UInt64) :
    expand nesting o none clock = expand nesting o (some ∅) clock := by
  have hbuild : Grammar.build (settings o none) clock = Grammar.build (settings o (some ∅)) clock := by
    rw [settings, settings]
    cases o.seed <;> rfl
  rw [expand, expand, hbuild]

/-- The clock counts only where there is no seed. -/
theorem expand_clock (hclock : o.seed = none → clock = clock') (nesting : Nat)
    (rules : Option RuleSet) : expand nesting o rules clock = expand nesting o rules clock' := by
  cases hseed : o.seed with
  | none => rw [hclock hseed]
  | some seed =>
    have hbuild := build_settings hseed rules clock clock'
    rw [← build_settings hseed rules clock' clock'] at hbuild
    rw [expand, expand, hbuild]

theorem run_of_expand (hargs : readArguments arguments = .ok (.expand o)) (nesting : Nat) :
    run nesting arguments files input clock =
      match readRules o files input with
      | .error e =>
        some (failure (line ("Error: failed to load rule set: ".toList ++ e.message)))
      | .ok rules => expand nesting o rules clock := by
  rw [run, plan, hargs]
  dsimp only
  cases readRules o files input <;> rfl

/-- Rules in a file and the same rules on standard input are expanded alike. -/
theorem run_file_eq_run_input {path : Text} (hargs : readArguments arguments = .ok (.expand o))
    (hpath : o.rules = some path) (hformat : RuleSet.Format.ofPath? path = some .json)
    (hfile : files path = .ok (encodeText s)) (hs : s.all isBlank = false)
    (hargs' : readArguments arguments' = .ok (.expand { o with rules := none }))
    (hclock : o.seed = none → clock = clock') (nesting : Nat) :
    run nesting arguments files input clock =
      run nesting arguments' files' (some (encodeText s)) clock' := by
  have hfrom : readRules o files input =
      readRules { o with rules := none } files' (some (encodeText s)) := by
    rw [readRules_of_path hpath, readRules_of_no_path rfl, readInput_eq_load hformat hfile hs]
  rw [run_of_expand hargs, run_of_expand hargs', hfrom]
  cases readRules { o with rules := none } files' (some (encodeText s)) with
  | error e => rfl
  | ok rules => exact expand_clock hclock nesting rules

/-- Standard input does not count unless something is to be expanded without a path. -/
theorem run_input (h : ∀ o, readArguments arguments = .ok (.expand o) → o.rules ≠ none)
    (input input' : Option ByteArray) (nesting : Nat) :
    run nesting arguments files input clock = run nesting arguments files input' clock := by
  cases hargs : readArguments arguments with
  | error e => rw [run, run, plan, plan, hargs]
  | ok request =>
    cases request with
    | help => rw [run, run, plan, plan, hargs]
    | expand o =>
      obtain ⟨path, hpath⟩ := Option.ne_none_iff_exists'.1 (h o hargs)
      rw [run_of_expand hargs, run_of_expand hargs, readRules_of_path hpath, readRules_of_path hpath]

/-- Blank input is like an object without members. -/
theorem run_blank (hs : ∀ c ∈ s, isBlank c = true) (arguments : List Text) (files : Files)
    (clock : UInt64) (nesting : Nat) :
    run nesting arguments files (some (encodeText s)) clock =
      run nesting arguments files (some (encodeText ['{', '}'])) clock := by
  by_cases h : ∀ o, readArguments arguments = .ok (.expand o) → o.rules ≠ none
  · exact run_input h _ _ nesting
  · push Not at h
    obtain ⟨o, hargs, hpath⟩ := h
    have hblank : readRules o files (some (encodeText s)) = .ok none := by
      rw [readRules_of_no_path hpath, readInput_encodeText, if_pos (List.all_eq_true.2 hs)]
    have hempty : readRules o files (some (encodeText ['{', '}'])) = .ok (some ∅) := by
      rw [readRules_of_no_path hpath, readInput_encodeText]
      rfl
    rw [run_of_expand hargs, run_of_expand hargs, hblank, hempty]
    exact expand_none nesting o clock

/-- **It does not matter where the rules come from.**  Whatever the rule set, the origin, the count and the
seed are, a run that finds the written rule set in a file and a run that finds it on standard input come to
the same report, or neither comes to one; without a seed this is so at the same time of the clock.  Where
there is a path, or nothing to expand, what is on standard input does not count, and where it is blank it is
like an object without members. -/
theorem run_of_same_rules :
    (∀ (rules : RuleSet) (o : Options) path arguments arguments' files files' input clock clock',
      readArguments arguments = .ok (.expand o) → o.rules = some path →
      RuleSet.Format.ofPath? path = some .json → files path = .ok (encodeText rules.writeJson) →
      readArguments arguments' = .ok (.expand { o with rules := none }) →
      (o.seed = none → clock = clock') →
      ∀ nesting, run nesting arguments files input clock =
        run nesting arguments' files' (some (encodeText rules.writeJson)) clock') ∧
    (∀ arguments, (∀ o, readArguments arguments = .ok (.expand o) → o.rules ≠ none) →
      ∀ files input input' clock nesting,
        run nesting arguments files input clock = run nesting arguments files input' clock) ∧
    ∀ s : Text, (∀ c ∈ s, isBlank c = true) → ∀ arguments files clock nesting,
      run nesting arguments files (some (encodeText s)) clock =
        run nesting arguments files (some (encodeText ['{', '}'])) clock := by
  refine ⟨?_, ?_, fun s hs arguments files clock nesting => run_blank hs arguments files clock nesting⟩
  · intro rules o path arguments arguments' files files' input clock clock' hargs hpath hformat hfile
      hargs' hclock nesting
    exact run_file_eq_run_input hargs hpath hformat hfile rules.all_isBlank_writeJson hargs' hclock nesting
  · intro arguments h files input input' clock nesting
    exact run_input h input input' nesting

/-- Two alternatives from a file and from standard input; bytes that are no text beside a path; and blanks
that are no blanks of JSON. -/
theorem run_of_same_rules_alternatives :
    let rules : RuleSet := KeyMap.ofList [(['a'], .many [['x'], "\"\n".toList])]
    let path := "d.d/r.json".toList
    let o : Options := ⟨some path, "#a#".toList, some 7, 3⟩
    let shared : List Text := ["--seed", "7", "--origin", "#a#", "--count", "3"].map String.toList
    let files : Files := fun p => if p = path then .ok (encodeText rules.writeJson) else .error .notFound
    let nowhere : Files := fun _ => .error .notFound
    let arguments := "--rules".toList :: path :: shared
    let noText : ByteArray := ⟨#[0xFF]⟩
    let blanks := "\u3000\x0c\n".toList
    readArguments arguments = .ok (.expand o) ∧
      readArguments shared = .ok (.expand { o with rules := none }) ∧
      ∀ nesting,
        run nesting arguments files none 1 =
          run nesting shared nowhere (some (encodeText rules.writeJson)) 2 ∧
        run nesting arguments files none 1 = run nesting arguments files (some noText) 1 ∧
        run nesting shared nowhere (some (encodeText blanks)) 1 =
          run nesting shared nowhere (some (encodeText ['{', '}'])) 1 := by
  intro rules path o shared files nowhere arguments noText blanks
  have hargs : readArguments arguments = .ok (.expand o) := by decide +kernel
  have hshared : readArguments shared = .ok (.expand { o with rules := none }) := by
    decide +kernel
  obtain ⟨hsame, hunread, hblank⟩ := run_of_same_rules
  have hfile : files path = .ok (encodeText rules.writeJson) := if_pos rfl
  refine ⟨hargs, hshared, fun nesting => ⟨?_, ?_, ?_⟩⟩
  · exact hsame rules o path arguments shared files nowhere none 1 2 hargs rfl rfl hfile hshared nofun nesting
  · refine hunread arguments (fun o' ho' => ?_) files none (some noText) 1 nesting
    rw [hargs] at ho'
    cases ho'
    exact Option.some_ne_none path
  · exact hblank blanks (List.all_eq_true.1 rfl) shared nowhere 1 nesting

end CommandLine

end TextGrammar
