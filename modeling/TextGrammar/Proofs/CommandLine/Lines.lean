import TextGrammar.CommandLine.Basic
import TextGrammar.Proofs.Run.Result

/-!
# TextGrammar.Proofs.CommandLine.Lines — the lines of a run of the program

A run that has a seed and its rules writes what flattening the origin again and again on one grammar gives,
a text a line (`CommandLine.run_refines`).  The program notes no events and grants a nesting; neither
decides what it writes (`Run.noted_flattenTimes`, `Run.flattenTimes_mono`).  What is asked for more often
begins with what is asked for less often, since the state goes on from line to line.
-/

namespace TextGrammar

/-! ### One text flattened again and again -/

namespace Run

theorem noted_flattenTimes (nesting : Nat) (s : Text) (count : Nat) :
    (flattenTimes nesting s count).Noted := by
  induction count with
  | zero => exact noted_pure _
  | succ count ih =>
    exact noted_bind (Tree.resolve_noted nesting (Tree.parse s)) fun _ _ =>
      noted_bind ih fun _ _ => noted_pure _

theorem full_flattenTimes_succ {nesting : Nat} {s : Text} {count : Nat} {g : Grammar}
    {q : Outcome (List Text)} :
    (flattenTimes nesting s (count + 1)).full g = some q ↔
      ∃ o p, (flatten nesting s).full g = some o ∧
        (flattenTimes nesting s count).full o.grammar = some p ∧
          q = ((⟨o.value :: p.value, ∅, p.grammar⟩ : Outcome (List Text)).behind p).behind o := by
  rw [flattenTimes, full_bind_eq_some]
  constructor
  · rintro ⟨o, _, ho, hrest, rfl⟩
    obtain ⟨p, _, hp, hend, rfl⟩ := full_bind_eq_some.1 hrest
    obtain rfl := Option.some.inj hend
    exact ⟨o, p, ho, hp, rfl⟩
  · rintro ⟨o, p, ho, hp, rfl⟩
    exact ⟨o, _, ho, full_bind_eq_some.2 ⟨p, _, hp, rfl, rfl⟩, rfl⟩

theorem flattenTimes_mono {m n : Nat} (hmn : m ≤ n) {s : Text} {count : Nat} {g : Grammar}
    {q : Outcome (List Text)} (hq : (flattenTimes m s count).full g = some q) :
    (flattenTimes n s count).full g = some q := by
  induction count generalizing g q with
  | zero => exact hq
  | succ count ih =>
    obtain ⟨o, p, ho, hp, rfl⟩ := full_flattenTimes_succ.1 hq
    exact full_flattenTimes_succ.2 ⟨o, p, flatten_mono hmn ho, ih hp, rfl⟩

end Run

/-- **A text flattened again and again** is as many texts one after the other. -/
theorem Grammar.flattensAll_replicate {g h : Grammar} {s : Text} {count : Nat} {texts : List Text}
    {draws : List Event} :
    g.FlattensAll (List.replicate count s) texts draws h ↔
      ∃ nesting q, (Run.flattenTimes nesting s count).full g = some q ∧
        q.value = texts ∧ q.draws = draws ∧ q.grammar = h := by
  induction count generalizing g texts draws with
  | zero =>
    constructor
    · rintro ⟨⟩
      exact ⟨0, _, rfl, rfl, rfl, rfl⟩
    · rintro ⟨_, q, hq, rfl, rfl, rfl⟩
      obtain rfl := Option.some.inj hq
      exact .nil
  | succ count ih =>
    rw [List.replicate_succ]
    constructor
    · rintro (_ | ⟨⟨m, o, ho, rfl, rfl, rfl⟩, rest⟩)
      obtain ⟨n, p, hp, rfl, rfl, rfl⟩ := ih.1 rest
      -- the first text and the others may need different nestings
      have hfirst := Run.flatten_mono (Nat.le_max_left m n) ho
      have hrest := Run.flattenTimes_mono (Nat.le_max_right m n) hp
      exact ⟨max m n, _, Run.full_flattenTimes_succ.2 ⟨o, p, hfirst, hrest, rfl⟩, rfl,
        by simp, rfl⟩
    · rintro ⟨nesting, _, hq, rfl, rfl, rfl⟩
      obtain ⟨o, p, ho, hp, rfl⟩ := Run.full_flattenTimes_succ.1 hq
      have hrest := ih.2 ⟨nesting, p, hp, rfl, rfl, rfl⟩
      rw [Outcome.draws_behind, Outcome.draws_behind, Outcome.draws_empty, List.append_nil]
      exact .cons ⟨nesting, o, ho, rfl, rfl, rfl⟩ hrest

namespace CommandLine

/-- The program comes to an end with the report. -/
def Reports (arguments : List Text) (files : Files) (input : Option ByteArray) (clock : UInt64)
    (r : Report) : Prop :=
  ∃ nesting, run nesting arguments files input clock = some r

/-- The arguments are accepted with a seed, and the rules that they name can be loaded. -/
structure Accepts (arguments : List Text) (files : Files) (input : Option ByteArray) (o : Options)
    (seed : UInt64) (rules : Option RuleSet) : Prop where
  accepted : readArguments arguments = .ok (.expand o)
  seeded : o.seed = some seed
  loaded : readRules o files input = .ok rules

/-- The settings of a grammar with a seed, the English modifiers and a rule set, if there is one. -/
def seededSettings (seed : UInt64) (rules : Option RuleSet) : List Setting :=
  [.seed seed, .english] ++ (rules.map Setting.rules).toList

/-- The clock does not count where there is a seed. -/
theorem build_settings {o : Options} {seed : UInt64} (hseed : o.seed = some seed)
    (rules : Option RuleSet) (clock now : UInt64) :
    Grammar.build (settings o rules) clock = Grammar.build (seededSettings seed rules) now := by
  rw [settings, hseed]
  cases rules <;> rfl

/-- Which events are noted does not change what is written. -/
theorem expand_eq_some {nesting : Nat} {o : Options} {rules : Option RuleSet} {clock : UInt64}
    {r : Report} : expand nesting o rules clock = some r ↔
      ∃ q, (Run.flattenTimes nesting o.origin o.count).full (Grammar.build (settings o rules) clock) =
        some q ∧ r = ⟨0, q.value.flatMap line, []⟩ := by
  have hnoted := Run.noted_flattenTimes nesting o.origin o.count (fun _ => false)
    (Grammar.build (settings o rules) clock)
  have hexpand : expand nesting o rules clock =
      ((Run.flattenTimes nesting o.origin o.count).full (Grammar.build (settings o rules) clock)).map
        fun q => ⟨0, q.value.flatMap line, []⟩ := by
    show Option.bind _ _ = _
    rw [hnoted]
    cases (Run.flattenTimes nesting o.origin o.count).full (Grammar.build (settings o rules) clock) <;>
      rfl
  rw [hexpand, Option.map_eq_some_iff]
  simp only [eq_comm (a := r)]

section

variable {arguments arguments' : List Text} {files files' : Files} {input input' : Option ByteArray}
variable {o o' : Options} {seed : UInt64} {rules : Option RuleSet} {clock clock' : UInt64}

/-- **A program run is a session of the library.** -/
theorem Accepts.reports_iff (ha : Accepts arguments files input o seed rules) (now : UInt64)
    {r : Report} : Reports arguments files input clock r ↔
      ∃ texts draws h, (Grammar.build (seededSettings seed rules) now).FlattensAll
        (List.replicate o.count o.origin) texts draws h ∧ r = ⟨0, texts.flatMap line, []⟩ := by
  have hrun : ∀ nesting, run nesting arguments files input clock = expand nesting o rules clock := by
    intro nesting
    simp only [run, plan, ha.accepted, ha.loaded]
  have hbuild := build_settings ha.seeded rules clock now
  constructor
  · rintro ⟨nesting, hr⟩
    rw [hrun, expand_eq_some, hbuild] at hr
    obtain ⟨q, hq, rfl⟩ := hr
    exact ⟨_, _, _, Grammar.flattensAll_replicate.2 ⟨nesting, q, hq, rfl, rfl, rfl⟩, rfl⟩
  · rintro ⟨texts, draws, h, hall, rfl⟩
    obtain ⟨nesting, q, hq, rfl, rfl, rfl⟩ := Grammar.flattensAll_replicate.1 hall
    refine ⟨nesting, ?_⟩
    rw [hrun, expand_eq_some, hbuild]
    exact ⟨q, hq, rfl⟩

theorem Accepts.reports_unique (ha : Accepts arguments files input o seed rules) {r r' : Report}
    (hr : Reports arguments files input clock r) (hr' : Reports arguments files input clock' r') :
    r = r' := by
  obtain ⟨texts, _, _, hall, rfl⟩ := (ha.reports_iff 0).1 hr
  obtain ⟨texts', _, _, hall', rfl⟩ := (ha.reports_iff 0).1 hr'
  rw [(hall.unique hall').1]

/-- **Fewer lines are the first of more lines**: the state goes on from line to line. -/
theorem Accepts.output_prefix (ha : Accepts arguments files input o seed rules)
    (ha' : Accepts arguments' files' input' o' seed rules) (horigin : o.origin = o'.origin)
    (hcount : o.count ≤ o'.count) {r' : Report} (hr' : Reports arguments' files' input' clock' r') :
    ∃ r, (∀ clock q, Reports arguments files input clock q ↔ q = r) ∧ r.output <+: r'.output := by
  obtain ⟨_, _, _, hall, rfl⟩ := (ha'.reports_iff 0).1 hr'
  obtain ⟨more, hmore⟩ := Nat.exists_eq_add_of_le hcount
  rw [hmore, List.replicate_add, ← horigin] at hall
  obtain ⟨texts, draws, g, rest, _, hfirst, -, rfl, -⟩ := hall.exists_of_append
  have hreports : ∀ clock, Reports arguments files input clock ⟨0, texts.flatMap line, []⟩ :=
    fun _ => (ha.reports_iff 0).2 ⟨texts, draws, g, hfirst, rfl⟩
  refine ⟨⟨0, texts.flatMap line, []⟩, fun clock q => ⟨fun hq => ?_, ?_⟩, ?_⟩
  · exact ha.reports_unique hq (hreports clock)
  · rintro rfl
    exact hreports clock
  · rw [List.flatMap_append]
    exact List.prefix_append _ _

end

/-- Arguments that are rejected or ask for help are answered at once. -/
theorem answered_of_not_expand {arguments : List Text}
    (h : ∀ o, readArguments arguments ≠ .ok (.expand o)) :
    ∃ r, (∀ files input, plan arguments files input = .report r) ∧
      (readArguments arguments = .ok .help → r = ⟨0, line usage, []⟩) ∧
      ∀ e, readArguments arguments = .error e → r.code = 1 ∧ r.output = [] := by
  unfold plan
  cases hread : readArguments arguments with
  | error e => exact ⟨_, fun _ _ => rfl, nofun, fun _ _ => ⟨rfl, rfl⟩⟩
  | ok request =>
    cases request with
    | help => exact ⟨_, fun _ _ => rfl, fun _ => rfl, nofun⟩
    | expand o => exact absurd hread (h o)

/-- **The command line refines the library.**  A run that accepts its arguments with a seed and loads its
rules reports no failure and writes, a text a line, what flattening the origin as often as it is asked to
gives on one grammar of the library, and it comes to an end if that does.  So with the same seed, rules and
origin, what fewer lines write is the beginning of what more lines write.  Arguments that are rejected or
ask for help are answered before a file or the input is looked at, and rules that cannot be loaded are
answered before anything is expanded. -/
theorem run_refines :
    (∀ arguments files input o seed rules, Accepts arguments files input o seed rules →
      ∀ clock now r, Reports arguments files input clock r ↔
        ∃ texts draws h, (Grammar.build (seededSettings seed rules) now).FlattensAll
          (List.replicate o.count o.origin) texts draws h ∧ r = ⟨0, texts.flatMap line, []⟩) ∧
    (∀ arguments files input o arguments' files' input' o' seed rules,
      Accepts arguments files input o seed rules → Accepts arguments' files' input' o' seed rules →
      o.origin = o'.origin → o.count ≤ o'.count →
      ∀ clock' r', Reports arguments' files' input' clock' r' →
        ∃ r, (∀ clock q, Reports arguments files input clock q ↔ q = r) ∧ r.output <+: r'.output) ∧
    (∀ arguments, (∀ o, readArguments arguments ≠ .ok (.expand o)) →
      ∃ r, (∀ files input, plan arguments files input = .report r) ∧
        (readArguments arguments = .ok .help → r = ⟨0, line usage, []⟩) ∧
        ∀ e, readArguments arguments = .error e → r.code = 1 ∧ r.output = []) ∧
    (∀ arguments files input o e, readArguments arguments = .ok (.expand o) →
      readRules o files input = .error e →
      ∃ r, plan arguments files input = .report r ∧ r.code = 1 ∧ r.output = []) ∧
    ∀ arguments files input r, plan arguments files input = .report r →
      ∀ nesting clock, run nesting arguments files input clock = some r := by
  refine ⟨?_, ?_, fun _ h => answered_of_not_expand h, ?_, ?_⟩
  · intro arguments files input o seed rules ha clock now r
    exact ha.reports_iff now
  · intro arguments files input o arguments' files' input' o' seed rules ha ha' horigin hcount
      clock' r' hr'
    exact ha.output_prefix ha' horigin hcount hr'
  · intro arguments files input o e hargs hrules
    simp only [plan, hargs, hrules]
    exact ⟨_, rfl, rfl, rfl⟩
  · intro arguments files input r hplan nesting clock
    rw [run, hplan]

/-- Arguments that ask for a number of lines of the key `a` with the seed 0. -/
def askedLines (count : String) : List Text :=
  ["--seed", "0", "--origin", "#a#", "--count", count].map String.toList

/-- The value that is drawn for the first line lays another one on the stack, which the other lines read;
one line is the first of three.  A flag without a value and input that is no object are answered before
anything is expanded. -/
theorem run_refines_lines :
    let files : Files := fun _ => .error .notFound
    let input := "\x7b\"a\":[\"x\",\"[a:y]z\"]\x7d".toUTF8
    let rules : RuleSet := KeyMap.ofList [(['a'], .many [['x'], "[a:y]z".toList])]
    let o (count : Nat) : Options := ⟨none, "#a#".toList, some 0, count⟩
    Accepts (askedLines "3") files (some input) (o 3) 0 (some rules) ∧
      Accepts (askedLines "1") files (some input) (o 1) 0 (some rules) ∧
      Reports (askedLines "3") files (some input) 0 ⟨0, "z\ny\ny\n".toList, []⟩ ∧
      (∃ r, (∀ clock q, Reports (askedLines "1") files (some input) clock q ↔ q = r) ∧
        r.output <+: "z\ny\ny\n".toList) ∧
      (∃ r, (∀ files input, plan ["--seed".toList] files input = .report r) ∧ r.code = 1) ∧
      ∃ r, plan (askedLines "1") files (some "[]".toUTF8) = .report r ∧ r.code = 1 := by
  intro files input rules o
  have hrules : ∀ count, readRules (o count) files (some input) = .ok (some rules) := by
    intro count
    show readInput input = _
    rw [readInput, decodeText_toUTF8]
    rfl
  have hthree : Accepts (askedLines "3") files (some input) (o 3) 0 (some rules) :=
    ⟨by decide, rfl, hrules 3⟩
  have hone : Accepts (askedLines "1") files (some input) (o 1) 0 (some rules) :=
    ⟨by decide, rfl, hrules 1⟩
  obtain ⟨hsession, hprefix, hanswered, hunreadable, -⟩ := run_refines
  -- three lines are evaluated once; what a single line reports is then a prefix of theirs
  obtain ⟨q, hq, hlines⟩ : ∃ q, (Run.flattenTimes 2 "#a#".toList 3).full
        (Grammar.build (seededSettings 0 (some rules)) 0) = some q ∧
      q.value.flatMap line = "z\ny\ny\n".toList := Option.map_eq_some_iff.1 (by decide +kernel)
  have hall := Grammar.flattensAll_replicate.2 ⟨2, q, hq, rfl, rfl, rfl⟩
  have hreports : Reports (askedLines "3") files (some input) 0 ⟨0, "z\ny\ny\n".toList, []⟩ :=
    (hsession _ _ _ _ _ _ hthree 0 0 _).2 ⟨_, _, _, hall, by rw [hlines]⟩
  obtain ⟨r, hr, hprefix⟩ :=
    hprefix _ _ _ _ _ _ _ _ _ _ hone hthree rfl (by decide) 0 _ hreports
  have hflag : readArguments ["--seed".toList] = .error (.unknown "--seed".toList) := by decide
  obtain ⟨rejected, hplan, -, hcode⟩ :=
    hanswered ["--seed".toList] fun o ho => by rw [hflag] at ho; cases ho
  obtain ⟨e, he⟩ : ∃ e, readRules (o 1) files (some "[]".toUTF8) = .error e := by
    show ∃ e, readInput "[]".toUTF8 = .error e
    rw [readInput, decodeText_toUTF8]
    exact ⟨_, rfl⟩
  obtain ⟨unreadable, hplan', hcode', -⟩ :=
    hunreadable (askedLines "1") files _ _ e hone.accepted he
  exact ⟨hthree, hone, hreports, ⟨r, hr, hprefix⟩, ⟨rejected, hplan, (hcode _ hflag).1⟩,
    unreadable, hplan', hcode'⟩

end CommandLine

end TextGrammar
