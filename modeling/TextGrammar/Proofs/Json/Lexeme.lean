import TextGrammar.Proofs.Json.StringLiteral

/-!
# TextGrammar.Proofs.Json.Lexeme — reading lexemes

A list of marks and strings is what a text is read as exactly if the text spells it (`lexemes_eq_iff`).
Numbers, words and what is not well formed are told apart from these by their first character, so
nothing has to be known about how they are read.
-/

namespace TextGrammar.Json

/-! ### Blanks -/

theorem isWhitespace_iff {c : Char} :
    c.isWhitespace = true ↔ c = ' ' ∨ c = '\t' ∨ c = '\n' ∨ c = '\r' := by
  simp only [Char.isWhitespace, Bool.or_eq_true, decide_eq_true_eq]
  grind

theorem Blanks.dropWhile_append {blanks : Text} (h : Blanks blanks) (s : Text) :
    (blanks ++ s).dropWhile Char.isWhitespace = s.dropWhile Char.isWhitespace :=
  List.dropWhile_append_of_pos fun c hc => isWhitespace_iff.2 (h c hc)

theorem blanks_takeWhile (s : Text) : Blanks (s.takeWhile Char.isWhitespace) := by
  intro c hc
  exact isWhitespace_iff.1 (List.all_eq_true.1 List.all_takeWhile c hc)

/-! ### One lexeme -/

namespace Lexeme

variable {l : Lexeme} {c : Char} {s rest : Text}

/-- A spelled lexeme does not begin with a blank. -/
theorem Spelled.exists_cons (h : l.Spelled s) : ∃ c t, s = c :: t ∧ c.isWhitespace = false := by
  cases h <;> exact ⟨_, _, rfl, rfl⟩

/-- A spelled lexeme is read, whatever follows. -/
theorem read_of_spelled (h : l.Spelled (c :: s)) (rest : Text) : read c (s ++ rest) = (l, rest) := by
  cases h with
  | openBrace | closeBrace | openBracket | closeBracket | colon | comma => rfl
  | @string t body hbody =>
    have hread : readString (body ++ ['"'] ++ rest) = .ok (t, rest) := by
      rw [List.append_assoc]
      exact readString_spelled hbody rest
    show ofString (readString (body ++ ['"'] ++ rest)) = (.string t, rest)
    rw [hread]
    rfl

theorem isPlain_ofScalar {r : Except Error (Scalar × Text)} (h : ofScalar r = (l, rest)) :
    l.isPlain = false := by
  cases r <;> (cases h; rfl)

theorem spelled_of_ofString {after : Text} (h : ofString (readString rest) = (l, after))
    (hplain : l.isPlain = true) : ∃ s, l.Spelled ('"' :: s) ∧ rest = s ++ after := by
  cases hr : readString rest with
  | error e =>
    rw [hr] at h
    cases h
    cases hplain
  | ok p =>
    obtain ⟨t, after'⟩ := p
    rw [hr] at h
    cases h
    obtain ⟨body, rfl, hbody⟩ := readString_eq_ok_iff.1 hr
    exact ⟨body ++ ['"'], .string hbody, by rw [List.append_assoc]; rfl⟩

/-- A mark or string that is read is spelled by what is read of it. -/
theorem spelled_of_read {after : Text} (h : read c rest = (l, after)) (hplain : l.isPlain = true) :
    ∃ s, l.Spelled (c :: s) ∧ rest = s ++ after := by
  -- neither a scalar nor a broken one is plain, so letters and digits begin no plain lexeme
  have hscalar {r : Except Error (Scalar × Text)} (hr : ofScalar r = (l, after)) : False := by
    rw [isPlain_ofScalar hr] at hplain
    cases hplain
  have hmark {m : Char} {mark : Lexeme} (hm : mark.Spelled [m]) (hc : c = m)
      (h : (mark, rest) = (l, after)) : ∃ s, l.Spelled (c :: s) ∧ rest = s ++ after := by
    cases h
    exact ⟨[], hc ▸ hm, rfl⟩
  unfold read at h
  by_cases hc : c = '{'
  · rw [if_pos hc] at h
    exact hmark .openBrace hc h
  rw [if_neg hc] at h
  by_cases hc : c = '}'
  · rw [if_pos hc] at h
    exact hmark .closeBrace hc h
  rw [if_neg hc] at h
  by_cases hc : c = '['
  · rw [if_pos hc] at h
    exact hmark .openBracket hc h
  rw [if_neg hc] at h
  by_cases hc : c = ']'
  · rw [if_pos hc] at h
    exact hmark .closeBracket hc h
  rw [if_neg hc] at h
  by_cases hc : c = ':'
  · rw [if_pos hc] at h
    exact hmark .colon hc h
  rw [if_neg hc] at h
  by_cases hc : c = ','
  · rw [if_pos hc] at h
    exact hmark .comma hc h
  rw [if_neg hc] at h
  by_cases hc : c = '"'
  · rw [if_pos hc] at h
    subst hc
    exact spelled_of_ofString h hplain
  rw [if_neg hc] at h
  -- the other characters begin no mark and no string
  by_cases hn : c = 'n'
  · rw [if_pos hn] at h
    exact (hscalar h).elim
  by_cases ht : c = 't'
  · rw [if_neg hn, if_pos ht] at h
    exact (hscalar h).elim
  by_cases hf : c = 'f'
  · rw [if_neg hn, if_neg ht, if_pos hf] at h
    exact (hscalar h).elim
  rw [if_neg hn, if_neg ht, if_neg hf] at h
  by_cases hnumber : (c = '-' || c.isDigit) = true
  · rw [if_pos hnumber] at h
    exact (hscalar h).elim
  · rw [if_neg hnumber] at h
    cases h
    cases hplain

end Lexeme

/-! ### All lexemes -/

/-- By induction on the spelling. -/
theorem lexemesWithin_of_spelled {ls : List Lexeme} {s : Text} (h : Spelled ls s) {count : Nat}
    (hcount : s.length ≤ count) : lexemesWithin count s = ls := by
  -- along the spelling: each lexeme takes one character at least, so the count lasts
  induction h generalizing count with
  | nil hblanks =>
    cases count with
    | zero => rfl
    | succ count =>
      have hdrop := hblanks.dropWhile_append []
      rw [List.append_nil] at hdrop
      rw [lexemesWithin, hdrop]
      rfl
  | @cons blanks s rest l ls hblanks first others ih =>
    obtain ⟨c, t, rfl, hc⟩ := first.exists_cons
    rw [List.length_append, List.length_append, List.length_cons] at hcount
    cases count with
    | zero => omega
    | succ count =>
      have hdrop : (blanks ++ (c :: t ++ rest)).dropWhile Char.isWhitespace = c :: (t ++ rest) := by
        rw [hblanks.dropWhile_append]
        exact List.dropWhile_cons_of_neg (by rw [hc]; decide)
      rw [lexemesWithin, hdrop]
      dsimp only
      rw [Lexeme.read_of_spelled first, ih (by omega)]

/-- By induction on the number of lexemes. -/
theorem spelled_of_lexemesWithin {s : Text} {count : Nat} (hcount : s.length ≤ count)
    (h : ∀ l ∈ lexemesWithin count s, l.isPlain = true) : Spelled (lexemesWithin count s) s := by
  -- along the count, not the text: a lexeme may take many characters at once
  induction count generalizing s with
  | zero =>
    obtain rfl : s = [] := List.length_eq_zero_iff.1 (by omega)
    exact .nil fun c hc => absurd hc List.not_mem_nil
  | succ count ih =>
    have hsplit : s.takeWhile Char.isWhitespace ++ s.dropWhile Char.isWhitespace = s :=
      List.takeWhile_append_dropWhile
    rw [lexemesWithin] at h ⊢
    cases hdrop : s.dropWhile Char.isWhitespace with
    | nil =>
      rw [hdrop, List.append_nil] at hsplit
      exact .nil (hsplit ▸ blanks_takeWhile s)
    | cons c rest =>
      rw [hdrop] at h hsplit
      dsimp only at h ⊢
      cases hread : Lexeme.read c rest with
      | mk l after =>
        rw [hread] at h
        obtain ⟨t, first, rfl⟩ := Lexeme.spelled_of_read hread (h l List.mem_cons_self)
        have hlen := congrArg List.length hsplit
        rw [List.length_append, List.length_cons, List.length_append] at hlen
        -- the blanks and the lexeme are cut off, and the text behind them is shorter
        have others := ih (s := after) (by omega) fun l hl => h l (List.mem_cons_of_mem _ hl)
        have hall := Spelled.cons (blanks_takeWhile s) first others
        rw [List.cons_append, hsplit] at hall
        exact hall

/-- **Reading the lexemes** of a text finds a list of marks and strings exactly if the text spells it. -/
theorem lexemes_eq_iff {ls : List Lexeme} (hplain : ∀ l ∈ ls, l.isPlain = true) {s : Text} :
    lexemes s = ls ↔ Spelled ls s := by
  constructor
  · rintro rfl
    exact spelled_of_lexemesWithin (Nat.le_refl _) hplain
  · intro h
    exact lexemesWithin_of_spelled h (Nat.le_refl _)

end TextGrammar.Json
