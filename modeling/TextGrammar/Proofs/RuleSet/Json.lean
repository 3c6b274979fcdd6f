import TextGrammar.Proofs.Json.Lexeme
import TextGrammar.Proofs.RuleSet.Object

/-!
# TextGrammar.Proofs.RuleSet.Json — rule sets as JSON

A text is read as a rule set exactly if it spells an object of rules (`readJson_exact`), and what is
written for a rule set spells one (`spelled_writeJson`), so it is read back (`readJson_writeJson`).
-/

namespace TextGrammar

/-! ### Writing -/

namespace Json

theorem hex_of_lt : ∀ n < 16, Text.hex n = [n.digitChar] := by decide

/-- A control character in four digits. -/
theorem fourDigits_control {c : Char} (h : c.toNat < 0x20) :
    FourDigits ('0' :: '0' :: (Text.hex (c.toNat / 16) ++ Text.hex (c.toNat % 16))) c.toNat := by
  have hdigit (d : Nat) (hd : d < 16) : IsHexDigit d.digitChar d := ⟨hd, .inl rfl⟩
  have hzeros : HexDigits ['0', '0'] ((0 * 16 + 0) * 16 + 0) :=
    (HexDigits.nil.snoc (hdigit 0 (by decide))).snoc (hdigit 0 (by decide))
  have hall := (hzeros.snoc (hdigit (c.toNat / 16) (by omega))).snoc (hdigit (c.toNat % 16) (by omega))
  have hcode : (((0 * 16 + 0) * 16 + 0) * 16 + c.toNat / 16) * 16 + c.toNat % 16 = c.toNat := by omega
  rw [hcode] at hall
  rw [hex_of_lt _ (by omega), hex_of_lt _ (by omega)]
  exact ⟨hall, rfl⟩

/-- What is written for a character: a letter, if there is one, or else its code point if it is a control
character, or else itself.  The writer never escapes a slash. -/
theorem writeChar_cases (c : Char) :
    (∃ e, e ≠ '/' ∧ (e, c) ∈ letterEscapes ∧ writeChar c = ['\\', e]) ∨
    ((∀ e, (e, c) ∉ letterEscapes) ∧ c.toNat < 0x20 ∧ writeChar c =
      '\\' :: 'u' :: '0' :: '0' :: (Text.hex (c.toNat / 16) ++ Text.hex (c.toNat % 16))) ∨
    (c ≠ '"' ∧ c ≠ '\\' ∧ 0x20 ≤ c.toNat ∧ writeChar c = [c]) := by
  have hletter {e d : Char} (hc : c = d) (he : (e, d) ∈ letterEscapes) (hslash : e ≠ '/') :
      ∃ e', e' ≠ '/' ∧ (e', c) ∈ letterEscapes ∧ ['\\', e] = ['\\', e'] :=
    ⟨e, hslash, hc ▸ he, rfl⟩
  unfold writeChar
  split_ifs with hquote hbackslash hb hf hn hr ht hcontrol
  · exact .inl (hletter hquote (by decide) (by decide))
  · exact .inl (hletter hbackslash (by decide) (by decide))
  · exact .inl (hletter hb (by decide) (by decide))
  · exact .inl (hletter hf (by decide) (by decide))
  · exact .inl (hletter hn (by decide) (by decide))
  · exact .inl (hletter hr (by decide) (by decide))
  · exact .inl (hletter ht (by decide) (by decide))
  · have hslash : c ≠ '/' := by
      rintro rfl
      exact absurd hcontrol (by decide)
    have hnone : c ∉ letterEscapes.map Prod.snd := by
      simp [letterEscapes, hquote, hbackslash, hslash, hb, hf, hn, hr, ht]
    exact .inr (.inl ⟨fun e he => hnone (List.mem_map_of_mem he), hcontrol, rfl⟩)
  · exact .inr (.inr ⟨hquote, hbackslash, Nat.le_of_not_lt hcontrol, rfl⟩)

/-- What is written for a character spells it. -/
theorem SpelledText.writeChar_append {t s : Text} (h : SpelledText t s) (c : Char) :
    SpelledText (c :: t) (writeChar c ++ s) := by
  obtain ⟨e, -, he, hwrite⟩ | ⟨-, hcontrol, hwrite⟩ | ⟨hquote, hbackslash, hle, hwrite⟩ :=
    writeChar_cases c
  · rw [hwrite]
    exact .letter he h
  · rw [hwrite]
    exact .unit (fourDigits_control hcontrol) h
  · rw [hwrite]
    exact .plain hquote hbackslash hle h

theorem spelledText_flatMap_writeChar (t : Text) : SpelledText t (t.flatMap writeChar) := by
  induction t with
  | nil => exact .nil
  | cons c t ih =>
    rw [List.flatMap_cons]
    exact ih.writeChar_append c

theorem spelled_writeString (t : Text) : Spelled [.string t] (writeString t) := by
  have hstring : (Lexeme.string t).Spelled ('"' :: (t.flatMap writeChar ++ ['"'])) :=
    .string (spelledText_flatMap_writeChar t)
  exact .single hstring

/-- Listed texts spell listed lexemes. -/
theorem spelled_listed {α : Type} {lexemes : α → List Lexeme} {text : α → Text}
    (h : ∀ a, Spelled (lexemes a) (text a)) (as : List α) :
    Spelled (listed (as.map lexemes)) (Text.listed (as.map text)) := by
  induction as with
  | nil => exact .nil fun c hc => absurd hc List.not_mem_nil
  | cons a as ih =>
    cases as with
    | nil =>
      rw [List.map_singleton, List.map_singleton, listed_singleton, Text.listed_singleton]
      exact h a
    | cons b as =>
      simp only [List.map_cons, listed_cons_cons, Text.listed_cons_cons] at ih ⊢
      exact (h a).append ((Spelled.single .comma).append ih)

theorem spelled_writeRule (rule : Rule) : Spelled (ruleLexemes rule) (writeRule rule) := by
  cases rule with
  | one source => exact spelled_writeString source
  | many sources =>
    have hsources := spelled_listed spelled_writeString sources
    exact ((Spelled.single .openBracket).append hsources).append (.single .closeBracket)

theorem spelled_writeMember (member : Text × Rule) :
    Spelled (memberLexemes member) (writeMember member.1 member.2) :=
  ((spelled_writeString member.1).append (.single .colon)).append (spelled_writeRule member.2)

end Json

namespace RuleSet

/-- What is written for a rule set spells its object. -/
theorem spelled_writeJson (rules : RuleSet) :
    Json.Spelled (Json.objectLexemes rules.entries) (writeJson rules) := by
  have hmembers := Json.spelled_listed Json.spelled_writeMember rules.entries
  exact ((Json.Spelled.single .openBrace).append hmembers).append (.single .closeBrace)

/-! ### Reading -/

/-- Reading succeeds with the rules of an object exactly if the text spells the object. -/
theorem readJson_eq_ok_iff {s : Text} {rules : RuleSet} :
    readJson s = .ok rules ↔
      ∃ members, Json.Spelled (Json.objectLexemes members) s ∧ rules = KeyMap.ofList members := by
  constructor
  · intro h
    obtain ⟨members, hls, hrules⟩ := Json.completes_iff.1 h
    exact ⟨members, (Json.lexemes_eq_iff (Json.isPlain_objectLexemes members)).1 hls, hrules⟩
  · rintro ⟨members, hs, hrules⟩
    have hls := (Json.lexemes_eq_iff (Json.isPlain_objectLexemes members)).2 hs
    exact Json.completes_iff.2 ⟨members, hls, hrules⟩

/-- **Reading accepts exactly the objects of rules**, however they are spelled, and of several members
with one key it takes the last. -/
theorem readJson_exact (s : Text) :
    ((∃ rules, readJson s = .ok rules) ↔ ∃ members, Json.Spelled (Json.objectLexemes members) s) ∧
      ∀ members, Json.Spelled (Json.objectLexemes members) s →
        ∃ rules, readJson s = .ok rules ∧ ∀ key, rules.get? key = KeyMap.lastValue key members := by
  refine ⟨⟨?_, ?_⟩, ?_⟩
  · rintro ⟨rules, h⟩
    obtain ⟨members, hs, -⟩ := readJson_eq_ok_iff.1 h
    exact ⟨members, hs⟩
  · rintro ⟨members, hs⟩
    exact ⟨_, readJson_eq_ok_iff.2 ⟨members, hs, rfl⟩⟩
  · intro members hs
    exact ⟨_, readJson_eq_ok_iff.2 ⟨members, hs, rfl⟩, KeyMap.get?_ofList members⟩

/-- Blanks of all four kinds, a key spelled in two ways, a surrogate pair, and empty lists and texts. -/
theorem readJson_exact_spellings :
    let s : Text :=
      " \x7b\"a\":\"x\",\n\"\\u0061\" : [\"\\ud83D\\uDE00\\/\", \"\"],\"\":[]\t\x7d\r".toList
    let members : List (Text × Rule) :=
      [(['a'], .one ['x']), (['a'], .many [['😀', '/'], []]), ([], .many [])]
    Json.Spelled (Json.objectLexemes members) s ∧
      ∃ rules, readJson s = .ok rules ∧ rules.get? ['a'] = some (.many [['😀', '/'], []]) ∧
        rules.get? [] = some (.many []) ∧ rules.get? ['x'] = none := by
  intro s members
  have hs : Json.Spelled (Json.objectLexemes members) s :=
    (Json.lexemes_eq_iff (Json.isPlain_objectLexemes members)).1 rfl
  obtain ⟨rules, hread, hget⟩ := (readJson_exact s).2 members hs
  exact ⟨hs, rules, hread, (hget _).trans (by decide), (hget _).trans (by decide),
    (hget _).trans (by decide)⟩

/-- **What is written for a rule set is read back** as the same rule set. -/
theorem readJson_writeJson (rules : RuleSet) : readJson (writeJson rules) = .ok rules :=
  readJson_eq_ok_iff.2 ⟨rules.entries, spelled_writeJson rules, rules.ofList_entries.symm⟩

end RuleSet

end TextGrammar
