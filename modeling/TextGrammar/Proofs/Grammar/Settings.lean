import TextGrammar.Grammar.Basic
import TextGrammar.Grammar.Resolve
import TextGrammar.Proofs.Grammar.Stacks

/-!
# TextGrammar.Proofs.Grammar.Settings — settings in any order

A builder collects settings of six kinds, each kind in a field of its own (`Builder.set_eq`), so what it
has collected is known from the settings of each kind (`Builder.ofSettings_eq`).  The grammar takes from it
the last source, or without one the last seed, the last limit, the modifiers, and the rule sets in their
order.  Settings of different kinds may therefore change places (`Grammar.build_agree`).
-/

namespace TextGrammar

namespace Setting

/-! ### Kinds of settings -/

def seed? : Setting → Option UInt64
  | seed n => some n
  | _ => none

def source? : Setting → Option Source
  | source s => some s
  | _ => none

def limit? : Setting → Option Nat
  | maxDepth limit => some limit
  | _ => none

def modifier? : Setting → Option (Text × Modifier)
  | modifier name f => some (name, f)
  | _ => none

def isEnglish : Setting → Bool
  | english => true
  | _ => false

def rules? : Setting → Option RuleSet
  | rules r => some r
  | _ => none

/-- The last of the settings of a kind. -/
def last {α : Type} (kind : Setting → Option α) (settings : List Setting) : Option α :=
  (settings.filterMap kind).getLast?

/-- The source that settings come to: the last one that is set, or that of the last seed, or without either
that of the clock. -/
def chosenSource (settings : List Setting) (clock : UInt64) : Source :=
  (last source? settings).getD (.ofSeed ((last seed? settings).getD clock))

variable {α : Type}

theorem last_append (kind : Setting → Option α) (settings more : List Setting) :
    last kind (settings ++ more) = (last kind more).or (last kind settings) := by
  unfold last
  rw [List.filterMap_append, List.getLast?_append]

theorem last_cons (kind : Setting → Option α) (x : Setting) (settings : List Setting) :
    last kind (x :: settings) = (last kind settings).or (kind x) := by
  have hx : last kind [x] = kind x := by
    unfold last
    cases hx : kind x <;> simp [hx]
  rw [← hx]
  exact last_append kind [x] settings

theorem last_eq_none {kind : Setting → Option α} {settings : List Setting}
    (h : ∀ x ∈ settings, kind x = none) : last kind settings = none := by
  rw [last, List.filterMap_eq_nil_iff.2 h, List.getLast?_nil]

theorem any_isEnglish_iff {settings : List Setting} :
    settings.any isEnglish = true ↔ english ∈ settings := by
  rw [List.any_eq_true]
  constructor
  · rintro ⟨x, hx, hen⟩
    cases x with
    | english => exact hx
    | _ => cases hen
  · exact fun h => ⟨english, h, rfl⟩

/-! ### What makes a difference -/

/-- Settings that agree kind by kind.  Seeds count only where there is no source. -/
structure Agree (settings settings' : List Setting) : Prop where
  source : last source? settings = last source? settings'
  seed : last source? settings = none → last seed? settings = last seed? settings'
  limit : last limit? settings = last limit? settings'
  english : english ∈ settings ↔ english ∈ settings'
  modifiers : settings.filterMap modifier? = settings'.filterMap modifier?
  rules : settings.filterMap rules? = settings'.filterMap rules?

/-- Settings that agree come to the same source; the clock counts only without a source and a seed. -/
theorem Agree.chosenSource_eq {settings settings' : List Setting} (h : Agree settings settings')
    {clock clock' : UInt64}
    (hclock : last source? settings = none → last seed? settings = none → clock = clock') :
    chosenSource settings clock = chosenSource settings' clock' := by
  unfold chosenSource
  rw [← h.source]
  cases hs : last source? settings with
  | some s => rw [Option.getD_some, Option.getD_some]
  | none =>
    rw [← h.seed hs]
    cases hn : last seed? settings with
    | some n => rw [Option.getD_some, Option.getD_some]
    | none => rw [hclock hs hn]

/-- Neighbours may change places for a kind that they are not both of. -/
theorem filterMap_swap {kind : Setting → Option α} {x y : Setting} (h : kind x = none ∨ kind y = none)
    (before after : List Setting) :
    (before ++ x :: y :: after).filterMap kind = (before ++ y :: x :: after).filterMap kind := by
  rw [List.filterMap_append, List.filterMap_append]
  rcases h with h | h <;> simp [List.filterMap_cons, h]

/-- **Neighbours of different kinds may change places.** -/
theorem Agree.swap {x y : Setting} (h : x.ctorIdx ≠ y.ctorIdx) (before after : List Setting) :
    Agree (before ++ x :: y :: after) (before ++ y :: x :: after) := by
  -- there is no kind that both are of
  have hkind : (x.source? = none ∨ y.source? = none) ∧ (x.seed? = none ∨ y.seed? = none) ∧
      (x.limit? = none ∨ y.limit? = none) ∧ (x.modifier? = none ∨ y.modifier? = none) ∧
      (x.rules? = none ∨ y.rules? = none) := by
    revert h
    cases x <;> cases y <;> simp [source?, seed?, limit?, modifier?, rules?, Setting.ctorIdx]
  obtain ⟨hsource, hseed, hlimit, hmodifier, hrules⟩ := hkind
  refine ⟨?_, fun _ => ?_, ?_, ?_, filterMap_swap hmodifier before after,
    filterMap_swap hrules before after⟩
  · rw [last, last, filterMap_swap hsource]
  · rw [last, last, filterMap_swap hseed]
  · rw [last, last, filterMap_swap hlimit]
  · exact ((List.Perm.swap y x after).append_left before).mem_iff

end Setting

namespace Builder

/-! ### What is collected -/

/-- A setting changes the field of its kind. -/
theorem set_eq (b : Builder) (x : Setting) : b.set x =
    { seed := x.seed?.or b.seed
      source := x.source?.or b.source
      maxDepth := x.limit?.or b.maxDepth
      english := b.english || x.isEnglish
      modifiers := b.modifiers ++ x.modifier?.toList
      ruleSets := b.ruleSets ++ x.rules?.toList } := by
  cases x <;>
    simp [set, Setting.seed?, Setting.source?, Setting.limit?, Setting.isEnglish, Setting.modifier?,
      Setting.rules?]

theorem foldl_set (b : Builder) (settings : List Setting) : settings.foldl set b =
    { seed := (Setting.last Setting.seed? settings).or b.seed
      source := (Setting.last Setting.source? settings).or b.source
      maxDepth := (Setting.last Setting.limit? settings).or b.maxDepth
      english := b.english || settings.any Setting.isEnglish
      modifiers := b.modifiers ++ settings.filterMap Setting.modifier?
      ruleSets := b.ruleSets ++ settings.filterMap Setting.rules? } := by
  induction settings generalizing b with
  | nil => simp [Setting.last]
  | cons x settings ih =>
    have hcons {α : Type} (kind : Setting → Option α) :
        (x :: settings).filterMap kind = (kind x).toList ++ settings.filterMap kind := by
      rw [List.filterMap_cons]
      cases kind x <;> rfl
    -- setting `x` first is setting nothing and putting `x` in front, field by field
    rw [List.foldl_cons, ih, set_eq]
    simp only [Setting.last_cons, Option.or_assoc, hcons, List.any_cons, Bool.or_assoc,
      List.append_assoc]

/-- **What a builder has collected**, kind by kind. -/
theorem ofSettings_eq (settings : List Setting) : ofSettings settings =
    { seed := Setting.last Setting.seed? settings
      source := Setting.last Setting.source? settings
      maxDepth := Setting.last Setting.limit? settings
      english := settings.any Setting.isEnglish
      modifiers := settings.filterMap Setting.modifier?
      ruleSets := settings.filterMap Setting.rules? } := by
  rw [ofSettings, foldl_set]
  simp only [Option.or_none, Bool.false_or, List.nil_append]

theorem chosenSource_ofSettings (settings : List Setting) (clock : UInt64) :
    (ofSettings settings).chosenSource clock = Setting.chosenSource settings clock := by
  rw [ofSettings_eq, chosenSource, Setting.chosenSource]
  cases Setting.last Setting.source? settings with
  | some s => rfl
  | none => cases Setting.last Setting.seed? settings <;> rfl

/-! ### What is built -/

/-- The rule sets are laid on the stacks of a grammar that has all the rest. -/
theorem build_eq (b : Builder) (clock : UInt64) : b.build clock =
    ({ store := ∅, modifiers := .ofList b.pack, source := b.chosenSource clock, maxDepth := b.maxDepth,
       depth := 0 } : Grammar).pushAll (b.ruleSets.flatMap RuleSet.trees) := by
  have hload (g : Grammar) :
      b.ruleSets.foldl Grammar.load g = g.pushAll (b.ruleSets.flatMap RuleSet.trees) := by
    induction b.ruleSets generalizing g with
    | nil => rfl
    | cons r ruleSets ih =>
      rw [List.foldl_cons, ih, Grammar.load_eq_pushAll, List.flatMap_cons, Grammar.pushAll_append]
  rw [build, hload, Grammar.registerAll_eq]
  rfl

end Builder

namespace Grammar

variable (settings : List Setting) (clock : UInt64)

/-- **What is built**, apart from the stacks. -/
theorem exists_build_eq : ∃ store, build settings clock =
    { store
      modifiers := .ofList ((if settings.any Setting.isEnglish then English.pack else []) ++
        settings.filterMap Setting.modifier?)
      source := Setting.chosenSource settings clock
      maxDepth := Setting.last Setting.limit? settings
      depth := 0 } := by
  rw [build, Builder.build_eq, Builder.chosenSource_ofSettings, Builder.pack, Builder.ofSettings_eq]
  exact pushAll_eq _ _

theorem source_build : (build settings clock).source = Setting.chosenSource settings clock := by
  obtain ⟨store, h⟩ := exists_build_eq settings clock
  rw [h]

theorem maxDepth_build :
    (build settings clock).maxDepth = Setting.last Setting.limit? settings := by
  obtain ⟨store, h⟩ := exists_build_eq settings clock
  rw [h]

/-- **The modifier of a name** is the last one that was added for it, and without one the English one. -/
theorem get?_modifiers_build (name : Text) : (build settings clock).modifiers.get? name =
    (KeyMap.lastValue name (settings.filterMap Setting.modifier?)).or
      (if settings.any Setting.isEnglish then KeyMap.lastValue name English.pack else none) := by
  obtain ⟨store, h⟩ := exists_build_eq settings clock
  rw [h, KeyMap.get?_ofList, KeyMap.lastValue_append]
  split <;> rfl

/-- **The stack of a key** holds an entry for each rule set that names it, the first one at the bottom. -/
theorem stack_build (key : Text) : (build settings clock).stack key =
    ((settings.filterMap Setting.rules?).filterMap fun r =>
      (r.get? key).map fun rule => Tree.parseAlternatives rule.alternatives).reverse := by
  rw [build, Builder.build_eq, stack_pushAll, RuleSet.valuesOf_flatMap_trees, Builder.ofSettings_eq]
  exact List.append_nil _

/-- Settings that come to the same source, limit, modifiers and rule sets build the same grammar. -/
theorem build_congr {settings settings' : List Setting} {clock clock' : UInt64}
    (source : Setting.chosenSource settings clock = Setting.chosenSource settings' clock')
    (limit : Setting.last Setting.limit? settings = Setting.last Setting.limit? settings')
    (english : settings.any Setting.isEnglish = settings'.any Setting.isEnglish)
    (modifiers : settings.filterMap Setting.modifier? = settings'.filterMap Setting.modifier?)
    (rules : settings.filterMap Setting.rules? = settings'.filterMap Setting.rules?) :
    build settings clock = build settings' clock' := by
  rw [build, build, Builder.build_eq, Builder.build_eq, Builder.chosenSource_ofSettings,
    Builder.chosenSource_ofSettings, Builder.pack, Builder.pack, Builder.ofSettings_eq,
    Builder.ofSettings_eq]
  dsimp only
  rw [source, limit, english, modifiers, rules]

/-- Settings that agree build the same grammar; the clock counts only without a source and a seed. -/
theorem build_of_agree {settings settings' : List Setting} (h : Setting.Agree settings settings')
    {clock clock' : UInt64}
    (hclock : Setting.last Setting.source? settings = none →
      Setting.last Setting.seed? settings = none → clock = clock') :
    build settings clock = build settings' clock' := by
  refine build_congr (h.chosenSource_eq hclock) h.limit ?_ h.modifiers h.rules
  rw [Bool.eq_iff_iff, Setting.any_isEnglish_iff, Setting.any_isEnglish_iff]
  exact h.english

/-- **Settings of different kinds may come in any order.**  Two lists of settings with the same last source
(or, where there is none, the same last seed) and the same last limit, that both ask for the English
modifiers or both do not, and that add the same modifiers and the same rule sets in the same order, build
the same grammar: it answers whatever is asked of it alike.  So neighbours of different kinds may change
places.  A modifier of its own counts before the English one and after it the last one of its name, wherever
they stand, and the stack of a key has an entry for each rule set that names it, the first one at the
bottom. -/
theorem build_agree :
    (∀ settings settings' : List Setting, Setting.Agree settings settings' →
      ∀ clock clock' : UInt64,
        (Setting.last Setting.source? settings = none →
          Setting.last Setting.seed? settings = none → clock = clock') →
        build settings clock = build settings' clock' ∧
        ∀ (nesting : Nat) (commands : List Command) (noted : Event → Bool),
          Command.performAll nesting commands noted (build settings clock) =
            Command.performAll nesting commands noted (build settings' clock')) ∧
    (∀ (before after : List Setting) (x y : Setting), x.ctorIdx ≠ y.ctorIdx → ∀ clock : UInt64,
      build (before ++ x :: y :: after) clock = build (before ++ y :: x :: after) clock) ∧
    ∀ (settings : List Setting) (clock : UInt64),
      (build settings clock).source = Setting.chosenSource settings clock ∧
      (build settings clock).maxDepth = Setting.last Setting.limit? settings ∧
      (∀ name, (build settings clock).modifiers.get? name =
        (KeyMap.lastValue name (settings.filterMap Setting.modifier?)).or
          (if settings.any Setting.isEnglish then KeyMap.lastValue name English.pack else none)) ∧
      ∀ key, (build settings clock).stack key =
        ((settings.filterMap Setting.rules?).filterMap fun r =>
          (r.get? key).map fun rule => Tree.parseAlternatives rule.alternatives).reverse := by
  refine ⟨fun settings settings' h clock clock' hclock => ?_, ?_, fun settings clock => ?_⟩
  · have hbuild := build_of_agree h hclock
    exact ⟨hbuild, fun nesting commands noted => by rw [hbuild]⟩
  · exact fun before after x y h clock => build_of_agree (.swap h before after) fun _ _ => rfl
  · exact ⟨source_build settings clock, maxDepth_build settings clock, get?_modifiers_build settings clock,
      stack_build settings clock⟩

/-- A modifier `a` of its own in front of the English one, a seed behind the source, and two rule sets for one
key; and the same settings kind by kind, at another time of the clock. -/
theorem build_agree_interleaved :
    let shout : Modifier := fun s _ => s ++ ['!']
    let first : RuleSet := KeyMap.ofList [(['x'], .one ['p']), (['y'], .many [])]
    let second : RuleSet := KeyMap.ofList [(['x'], .many [['q'], ['r']])]
    let settings : List Setting := [.rules first, .modifier ['a'] shout, .source .last, .maxDepth 3,
      .english, .seed 7, .rules second, .maxDepth 5]
    let settings' : List Setting := [.maxDepth 5, .english, .rules first, .english, .source (.fixed 1),
      .rules second, .source .last, .modifier ['a'] shout]
    Setting.Agree settings settings' ∧ build settings 1 = build settings' 2 ∧
      (build settings 1).modifiers.get? ['a'] = some shout ∧
      (build settings 1).stack ['x'] = [.select [.literal ['q'], .literal ['r']], .literal ['p']] ∧
      (Setting.english.ctorIdx ≠ (Setting.seed 7).ctorIdx ∧
        ∀ clock, build [.english, .seed 7] clock = build [.seed 7, .english] clock) := by
  intro shout first second settings settings'
  have hagree : Setting.Agree settings settings' :=
    ⟨rfl, nofun, rfl, by simp [settings, settings'], rfl, rfl⟩
  obtain ⟨hsame, hswap, hbuilt⟩ := build_agree
  obtain ⟨-, -, hmodifiers, hstack⟩ := hbuilt settings 1
  refine ⟨hagree, (hsame settings settings' hagree 1 2 nofun).1, ?_, ?_, by decide, ?_⟩
  · rw [hmodifiers]
    rfl
  · rw [hstack]
    rfl
  · exact fun clock => hswap [] [] .english (.seed 7) (by decide) clock

end Grammar

end TextGrammar
