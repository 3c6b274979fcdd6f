import TextGrammar.Json.Spelling
import TextGrammar.KeyMap
import TextGrammar.Proofs.RuleSet.Reading

/-!
# TextGrammar.Proofs.RuleSet.Object — reading the object of the rules

A rule set is written as an object whose members are strings and lists of strings.  `objectLexemes`
says which lexemes such an object has; a key may stand in it more than once.

From every state that is met on the way to a rule set, the lexemes that complete the reading are those
of what is still due: an item, the rest of a list, a rule, the rest of the members.  Each phrase has one
lemma, an equivalence, and the phrases that it is made of come before it.
-/

namespace TextGrammar

namespace Json

/-! ### Lexemes -/

/-- Lexemes with a comma between the parts. -/
def listed (parts : List (List Lexeme)) : List Lexeme := [Lexeme.comma].intercalate parts

/-- The lexemes of a rule: a string, or a list of strings. -/
def ruleLexemes : Rule → List Lexeme
  | .one source => [.string source]
  | .many sources => .openBracket :: (listed (sources.map fun t => [.string t]) ++ [.closeBracket])

/-- The lexemes of a member: its key, a colon, and its rule. -/
def memberLexemes (member : Text × Rule) : List Lexeme :=
  .string member.1 :: .colon :: ruleLexemes member.2

/-- The lexemes of the object with given members, in their order. -/
def objectLexemes (members : List (Text × Rule)) : List Lexeme :=
  .openBrace :: (listed (members.map memberLexemes) ++ [.closeBrace])

theorem listed_singleton (part : List Lexeme) : listed [part] = part := by
  simp [listed, List.intercalate]

theorem listed_cons_cons (part next : List Lexeme) (parts : List (List Lexeme)) :
    listed (part :: next :: parts) = part ++ .comma :: listed (next :: parts) := by
  simp [listed, List.intercalate]

/-- Every part but the first has a comma in front of it. -/
theorem listed_cons (part : List Lexeme) (parts : List (List Lexeme)) :
    listed (part :: parts) = part ++ parts.flatMap (Lexeme.comma :: ·) := by
  induction parts generalizing part with
  | nil => rw [listed_singleton, List.flatMap_nil, List.append_nil]
  | cons next parts ih => rw [listed_cons_cons, ih, List.flatMap_cons, List.cons_append]

theorem isPlain_listed {parts : List (List Lexeme)} (h : ∀ part ∈ parts, ∀ l ∈ part, l.isPlain = true) :
    ∀ l ∈ listed parts, l.isPlain = true := by
  cases parts with
  | nil => exact fun l hl => absurd hl List.not_mem_nil
  | cons part parts =>
    intro l hl
    rw [listed_cons, List.mem_append, List.mem_flatMap] at hl
    rcases hl with hl | ⟨part', hpart, hl⟩
    · exact h part List.mem_cons_self l hl
    · rcases List.mem_cons.1 hl with rfl | hl
      · rfl
      · exact h part' (List.mem_cons_of_mem _ hpart) l hl

theorem isPlain_ruleLexemes (rule : Rule) : ∀ l ∈ ruleLexemes rule, l.isPlain = true := by
  cases rule with
  | one source => simp [ruleLexemes, Lexeme.isPlain]
  | many sources =>
    have hlisted : ∀ l ∈ listed (sources.map fun t => [.string t]), l.isPlain = true :=
      isPlain_listed (by simp [Lexeme.isPlain])
    intro l hl
    simp only [ruleLexemes, List.mem_cons, List.mem_append, List.not_mem_nil, or_false] at hl
    rcases hl with rfl | hl | rfl
    · rfl
    · exact hlisted l hl
    · rfl

/-- Only marks and strings stand in the object. -/
theorem isPlain_objectLexemes (members : List (Text × Rule)) :
    ∀ l ∈ objectLexemes members, l.isPlain = true := by
  have hmember (member : Text × Rule) : ∀ l ∈ memberLexemes member, l.isPlain = true := by
    intro l hl
    simp only [memberLexemes, List.mem_cons] at hl
    rcases hl with rfl | rfl | hl
    · rfl
    · rfl
    · exact isPlain_ruleLexemes member.2 l hl
  have hlisted : ∀ l ∈ listed (members.map memberLexemes), l.isPlain = true := by
    refine isPlain_listed fun part hpart => ?_
    obtain ⟨member, -, rfl⟩ := List.mem_map.1 hpart
    exact hmember member
  intro l hl
  simp only [objectLexemes, List.mem_cons, List.mem_append, List.not_mem_nil, or_false] at hl
  rcases hl with rfl | hl | rfl
  · rfl
  · exact hlisted l hl
  · rfl

variable {r : Reading} {l : Lexeme} {ls : List Lexeme} {rules set : RuleSet} {key : Text}

/-! ### Lists of strings -/

/-- A list of strings is open in the object of the rules. -/
def strings (ts : List Text) (set : RuleSet) (key : Text) : List Frame :=
  [.list (ts.map .string), .rules set key]

/-- The rules that the last key has been given a rule in. -/
def given (set : RuleSet) (key : Text) (rule : Rule) : Reading :=
  .within [.rules (set.insert key rule) key] .separator

variable {ts : List Text}

theorem close_strings : close (strings ts set key) = .ok (given set key (.many ts)) := by
  rw [strings, close, place, Value.rule?, mapM_string?_map]
  rfl

/-- Only a string may stand in the list. -/
theorem completes_item_iff :
    (∃ r, readValue (strings ts set key) l = .ok r ∧ Completes r ls rules) ↔
      ∃ t, l = .string t ∧ Completes (.within (strings (ts ++ [t]) set key) .separator) ls rules := by
  have hplace (v : Value) : place v (strings ts set key) =
      .ok (.within [.list (ts.map .string ++ [v]), .rules set key] .separator) := rfl
  constructor
  · rintro ⟨r, hr, h⟩
    -- any value but a string is read on, to be refused at its end: nothing completes it
    cases l with
    | string t =>
      rw [readValue, hplace] at hr
      cases hr
      refine ⟨t, rfl, ?_⟩
      rw [strings, List.map_append]
      exact h
    | scalar s =>
      rw [readValue, hplace] at hr
      cases hr
      have hdoomed : Doomed [.list (ts.map .string ++ [.scalar s]), .rules set key] :=
        .list ⟨.scalar s, List.mem_append_right _ List.mem_cons_self, rfl⟩
      exact (hdoomed.not_completes h).elim
    | openBracket =>
      cases hr
      exact ((Doomed.inList .list).not_completes h).elim
    | openBrace =>
      cases hr
      exact ((Doomed.inObject .list).not_completes h).elim
    | _ => cases hr
  · rintro ⟨t, rfl, h⟩
    rw [strings, List.map_append] at h
    exact ⟨_, hplace _, h⟩

theorem completes_nextItem_iff :
    Completes (.within (strings ts set key) .nextItem) ls rules ↔
      ∃ t rest, ls = .string t :: rest ∧
        Completes (.within (strings (ts ++ [t]) set key) .separator) rest rules := by
  constructor
  · intro h
    obtain ⟨l, rest, r, rfl, hr, h⟩ := h.exists_cons
    have hitem : readValue (strings ts set key) l = .ok r := by
      cases l with
      | closeBracket => cases hr
      | _ => exact hr
    obtain ⟨t, rfl, hrest⟩ := completes_item_iff.1 ⟨r, hitem, h⟩
    exact ⟨t, rest, rfl, hrest⟩
  · rintro ⟨t, rest, rfl, h⟩
    exact completes_cons_iff.2 (completes_item_iff.2 ⟨t, rfl, h⟩)

theorem completes_firstItem_iff :
    Completes (.within (strings [] set key) .firstItem) ls rules ↔
      (∃ rest, ls = .closeBracket :: rest ∧ Completes (given set key (.many [])) rest rules) ∨
      ∃ t rest, ls = .string t :: rest ∧
        Completes (.within (strings [t] set key) .separator) rest rules := by
  constructor
  · intro h
    obtain ⟨l, rest, r, rfl, hr, h⟩ := h.exists_cons
    have hitem : l = .closeBracket ∨ readValue (strings [] set key) l = .ok r := by
      cases l with
      | closeBracket => exact .inl rfl
      | _ => exact .inr hr
    rcases hitem with rfl | hitem
    · have hclose : close (strings [] set key) = .ok r := hr
      cases close_strings.symm.trans hclose
      exact .inl ⟨rest, rfl, h⟩
    · obtain ⟨t, rfl, hrest⟩ := completes_item_iff.1 ⟨r, hitem, h⟩
      exact .inr ⟨t, rest, rfl, hrest⟩
  · rintro (⟨rest, rfl, h⟩ | ⟨t, rest, rfl, h⟩)
    · have hclose : close (strings [] set key) = .ok (given set key (.many [])) := close_strings
      exact completes_cons_iff.2 ⟨_, hclose, h⟩
    · exact completes_cons_iff.2 (completes_item_iff.2 ⟨t, rfl, h⟩)

theorem completes_afterItem_iff :
    Completes (.within (strings ts set key) .separator) ls rules ↔
      (∃ rest, ls = .closeBracket :: rest ∧ Completes (given set key (.many ts)) rest rules) ∨
      ∃ t rest, ls = .comma :: .string t :: rest ∧
        Completes (.within (strings (ts ++ [t]) set key) .separator) rest rules := by
  constructor
  · intro h
    obtain ⟨l, rest, r, rfl, hr, h⟩ := h.exists_cons
    cases l with
    | closeBracket =>
      have hclose : close (strings ts set key) = .ok r := hr
      cases close_strings.symm.trans hclose
      exact .inl ⟨rest, rfl, h⟩
    | comma =>
      cases hr
      obtain ⟨t, rest, rfl, hrest⟩ := completes_nextItem_iff.1 h
      exact .inr ⟨t, rest, rfl, hrest⟩
    | _ => cases hr
  · rintro (⟨rest, rfl, h⟩ | ⟨t, rest, rfl, h⟩)
    · have hclose : close (strings ts set key) = .ok (given set key (.many ts)) := close_strings
      exact completes_cons_iff.2 ⟨_, hclose, h⟩
    · exact completes_cons_iff.2 ⟨_, rfl, completes_nextItem_iff.2 ⟨t, rest, rfl, h⟩⟩

/-- The rest of a list: by induction on its length. -/
theorem completes_items_iff :
    Completes (.within (strings ts set key) .separator) ls rules ↔
      ∃ us rest, ls = (us.map fun t => [.string t]).flatMap (Lexeme.comma :: ·) ++ .closeBracket :: rest ∧
        Completes (given set key (.many (ts ++ us))) rest rules := by
  constructor
  · intro h
    -- each item takes a comma and a string, so the list of lexemes gets shorter by two
    induction hn : ls.length using Nat.strongRecOn generalizing ls ts with
    | ind n ih =>
      rcases completes_afterItem_iff.1 h with ⟨rest, rfl, hrest⟩ | ⟨t, rest, rfl, hrest⟩
      · exact ⟨[], rest, rfl, by rwa [List.append_nil]⟩
      · have hlt : rest.length < n := by
          rw [← hn, List.length_cons, List.length_cons]
          omega
        obtain ⟨us, rest', rfl, hrest'⟩ := ih rest.length hlt hrest rfl
        exact ⟨t :: us, rest', rfl, by rwa [List.append_assoc] at hrest'⟩
  · rintro ⟨us, rest, rfl, h⟩
    induction us generalizing ts with
    | nil =>
      rw [List.append_nil] at h
      exact completes_afterItem_iff.2 (.inl ⟨rest, rfl, h⟩)
    | cons t us ih =>
      refine completes_afterItem_iff.2 (.inr ⟨t, _, rfl, ih ?_⟩)
      rwa [List.append_assoc]

/-- **A list of strings**: what is behind its opening bracket. -/
theorem completes_strings_iff :
    Completes (.within (strings [] set key) .firstItem) ls rules ↔
      ∃ us rest, ls = listed (us.map fun t => [.string t]) ++ .closeBracket :: rest ∧
        Completes (given set key (.many us)) rest rules := by
  rw [completes_firstItem_iff]
  constructor
  · rintro (⟨rest, rfl, h⟩ | ⟨t, rest, rfl, h⟩)
    · exact ⟨[], rest, rfl, h⟩
    · obtain ⟨us, rest, rfl, hrest⟩ := completes_items_iff.1 h
      exact ⟨t :: us, rest, by rw [List.map_cons, listed_cons]; rfl, hrest⟩
  · rintro ⟨us, rest, rfl, h⟩
    cases us with
    | nil => exact .inl ⟨rest, rfl, h⟩
    | cons t us =>
      refine .inr ⟨t, _, ?_, completes_items_iff.2 ⟨us, rest, rfl, h⟩⟩
      rw [List.map_cons, listed_cons]
      rfl

/-! ### Members -/

/-- **A rule** is what may stand where the value of a member is due. -/
theorem completes_value_iff :
    Completes (.within [.rules set key] .value) ls rules ↔
      ∃ rule rest, ls = ruleLexemes rule ++ rest ∧ Completes (given set key rule) rest rules := by
  constructor
  · intro h
    obtain ⟨l, rest, r, rfl, hr, h⟩ := h.exists_cons
    cases l with
    | string t =>
      cases hr
      exact ⟨.one t, rest, rfl, h⟩
    | openBracket =>
      cases hr
      obtain ⟨us, rest, rfl, hrest⟩ := completes_strings_iff.1 h
      exact ⟨.many us, rest, by rw [ruleLexemes, List.cons_append, List.append_assoc]; rfl, hrest⟩
    -- an object in the place of a rule is read on, but nothing completes it
    | openBrace =>
      cases hr
      exact (Doomed.object.not_completes h).elim
    | _ => cases hr
  · rintro ⟨rule, rest, rfl, h⟩
    cases rule with
    | one t => exact completes_cons_iff.2 ⟨_, rfl, h⟩
    | many us =>
      rw [ruleLexemes, List.cons_append, List.append_assoc]
      exact completes_cons_iff.2 ⟨_, rfl, completes_strings_iff.2 ⟨us, rest, rfl, h⟩⟩

/-- A member, where its key is due or has just been read. -/
theorem completes_key_iff :
    (∃ r, readKey [.rules set key] l = .ok r ∧ Completes r ls rules) ↔
      ∃ member rest, l :: ls = memberLexemes member ++ rest ∧
        Completes (given set member.1 member.2) rest rules := by
  constructor
  · rintro ⟨r, hr, h⟩
    cases l with
    | string k =>
      cases hr
      obtain ⟨l, rest, r, rfl, hr, h⟩ := h.exists_cons
      cases l with
      | colon =>
        cases hr
        obtain ⟨rule, rest, rfl, hrest⟩ := completes_value_iff.1 h
        exact ⟨(k, rule), rest, rfl, hrest⟩
      | _ => cases hr
    | _ => cases hr
  · rintro ⟨⟨k, rule⟩, rest, heq, h⟩
    cases heq
    refine ⟨_, rfl, completes_cons_iff.2 ⟨_, rfl, ?_⟩⟩
    exact completes_value_iff.2 ⟨rule, rest, rfl, h⟩

/-- The object may end behind a member. -/
theorem completes_afterMember_iff :
    Completes (.within [.rules set key] .separator) ls rules ↔
      (ls = [.closeBrace] ∧ rules = set) ∨
      ∃ member rest, ls = .comma :: (memberLexemes member ++ rest) ∧
        Completes (given set member.1 member.2) rest rules := by
  constructor
  · intro h
    obtain ⟨l, rest, r, rfl, hr, h⟩ := h.exists_cons
    cases l with
    | closeBrace =>
      cases hr
      obtain ⟨rfl, rfl⟩ := completes_complete_iff.1 h
      exact .inl ⟨rfl, rfl⟩
    | comma =>
      cases hr
      obtain ⟨l, rest, r, rfl, hr, h⟩ := h.exists_cons
      -- behind a comma the object may not end
      have hkey : readKey [.rules set key] l = .ok r := by
        cases l with
        | closeBrace => cases hr
        | _ => exact hr
      obtain ⟨member, rest', heq, hrest⟩ := completes_key_iff.1 ⟨r, hkey, h⟩
      exact .inr ⟨member, rest', by rw [heq], hrest⟩
    | _ => cases hr
  · rintro (⟨rfl, rfl⟩ | ⟨member, rest, rfl, h⟩)
    · exact completes_cons_iff.2 ⟨_, rfl, completes_complete_iff.2 ⟨rfl, rfl⟩⟩
    · have hkey : ∃ r, readKey [.rules set key] (.string member.1) = .ok r ∧
          Completes r (.colon :: (ruleLexemes member.2 ++ rest)) rules :=
        completes_key_iff.2 ⟨member, rest, rfl, h⟩
      exact completes_cons_iff.2 ⟨_, rfl, completes_cons_iff.2 hkey⟩

/-- The rest of the members: by induction on its length. -/
theorem completes_members_iff :
    Completes (.within [.rules set key] .separator) ls rules ↔
      ∃ members, ls = (members.map memberLexemes).flatMap (Lexeme.comma :: ·) ++ [.closeBrace] ∧
        rules = set.insertAll members := by
  constructor
  · intro h
    -- a member takes as many lexemes as its rule needs; hence the length as the measure
    induction hn : ls.length using Nat.strongRecOn generalizing ls set key with
    | ind n ih =>
      rcases completes_afterMember_iff.1 h with ⟨rfl, rfl⟩ | ⟨member, rest, rfl, hrest⟩
      · exact ⟨[], rfl, rfl⟩
      · have hlt : rest.length < n := by
          rw [← hn, List.length_cons, List.length_append]
          omega
        obtain ⟨members, rfl, hrules⟩ := ih rest.length hlt hrest rfl
        refine ⟨member :: members, ?_, hrules⟩
        rw [List.map_cons, List.flatMap_cons, List.append_assoc]
        rfl
  · rintro ⟨members, rfl, rfl⟩
    induction members generalizing set key with
    | nil => exact completes_afterMember_iff.2 (.inl ⟨rfl, rfl⟩)
    | cons member members ih =>
      refine completes_afterMember_iff.2 (.inr ⟨member, _, ?_, ih⟩)
      rw [List.map_cons, List.flatMap_cons, List.append_assoc]
      rfl

/-- **An object of rules**: what is behind its opening brace. -/
theorem completes_object_iff :
    Completes (.within [.rules set key] .firstKey) ls rules ↔
      ∃ members, ls = listed (members.map memberLexemes) ++ [.closeBrace] ∧
        rules = set.insertAll members := by
  constructor
  · intro h
    obtain ⟨l, rest, r, rfl, hr, h⟩ := h.exists_cons
    -- the first key differs from others only in that the object may end instead of it
    have hkey : l = .closeBrace ∨ readKey [.rules set key] l = .ok r := by
      cases l with
      | closeBrace => exact .inl rfl
      | _ => exact .inr hr
    rcases hkey with rfl | hkey
    · cases hr
      obtain ⟨rfl, rfl⟩ := completes_complete_iff.1 h
      exact ⟨[], rfl, rfl⟩
    · obtain ⟨member, rest', heq, hrest⟩ := completes_key_iff.1 ⟨r, hkey, h⟩
      obtain ⟨members, rfl, hrules⟩ := completes_members_iff.1 hrest
      refine ⟨member :: members, ?_, hrules⟩
      rw [heq, List.map_cons, listed_cons, List.append_assoc]
  · rintro ⟨members, rfl, rfl⟩
    cases members with
    | nil => exact completes_cons_iff.2 ⟨_, rfl, completes_complete_iff.2 ⟨rfl, rfl⟩⟩
    | cons member members =>
      have hmembers : Completes (given set member.1 member.2)
          ((members.map memberLexemes).flatMap (Lexeme.comma :: ·) ++ [.closeBrace])
          (set.insertAll (member :: members)) :=
        completes_members_iff.2 ⟨members, rfl, rfl⟩
      rw [List.map_cons, listed_cons, List.append_assoc]
      have hkey : ∃ r, readKey [.rules set key] (.string member.1) = .ok r ∧ Completes r _ _ :=
        completes_key_iff.2 ⟨member, _, rfl, hmembers⟩
      exact completes_cons_iff.2 hkey

/-- A text can begin only with an object. -/
theorem completes_iff :
    Completes (.within [] .value) ls rules ↔
      ∃ members, ls = objectLexemes members ∧ rules = KeyMap.ofList members := by
  constructor
  · intro h
    obtain ⟨l, rest, r, rfl, hr, h⟩ := h.exists_cons
    cases l with
    | openBrace =>
      cases hr
      obtain ⟨members, rfl, rfl⟩ := completes_object_iff.1 h
      exact ⟨members, rfl, rfl⟩
    | _ => cases hr
  · rintro ⟨members, rfl, rfl⟩
    exact completes_cons_iff.2 ⟨_, rfl, completes_object_iff.2 ⟨members, rfl, rfl⟩⟩

end Json

end TextGrammar
