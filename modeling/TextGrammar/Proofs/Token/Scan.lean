import TextGrammar.Token.Scan

/-!
# TextGrammar.Proofs.Token.Scan — what scanning keeps

The tokens of a text stand for the text without its escapes (`flatMap_value_scan`).  A text in which no
character is a token of its own is scanned to one run, up to the mark behind it (`scan_isRun_mark`): a
plain text is, and so is a text with every character escaped.
-/

namespace TextGrammar

namespace Token

/-! ### Values -/

theorem value_of_ofChar? {c : Char} {t : Token} (h : ofChar? c = some t) : t.value = [c] := by
  unfold ofChar? at h
  split at h
  · rename_i m hm
    obtain rfl := Option.some.inj h
    rw [Mark.ofChar?_eq_some_iff.1 hm]
    rfl
  · split at h
    · obtain rfl := Option.some.inj h
      rfl
    · cases h

theorem flatMap_value_attach (c : Char) (ts : List Token) :
    (attach c ts).flatMap value = c :: ts.flatMap value := by
  cases ts with
  | nil => rfl
  | cons t ts => cases t <;> rfl

/-- **The tokens stand for the text**, with one level of escapes taken away. -/
theorem flatMap_value_scan (s : Text) : (scan s).flatMap value = Text.unescaped s := by
  fun_induction scan s with
  | case1 => rfl
  | case2 => rfl
  | case3 rest ih => simp [Text.unescaped, value, ih]
  | case4 c rest hc ih => simp [Text.unescaped, flatMap_value_attach, ih]
  | case5 c rest h₁ h₂ h₃ t ht ih => simp [Text.unescaped, value_of_ofChar? ht, ih]
  | case6 c rest h₁ h₂ h₃ ht ih => simp [Text.unescaped, flatMap_value_attach, ih]

/-! ### Lengths -/

theorem length_attach_le (c : Char) (ts : List Token) : (attach c ts).length ≤ ts.length + 1 := by
  cases ts with
  | nil => exact Nat.le_refl _
  | cons t ts => cases t <;> simp [attach]

/-- **A text has no more tokens than characters.** -/
theorem length_scan_le (s : Text) : (scan s).length ≤ s.length := by
  fun_induction scan s with
  | case1 => exact Nat.le_refl _
  | case2 => exact Nat.zero_le _
  | case3 rest ih =>
    simp only [List.length_cons]
    omega
  | case4 c rest hc ih =>
    have hattach := length_attach_le c (scan rest)
    simp only [List.length_cons]
    omega
  | case5 c rest h₁ h₂ h₃ t ht ih => exact Nat.succ_le_succ ih
  | case6 c rest h₁ h₂ h₃ ht ih =>
    exact Nat.le_trans (length_attach_le c (scan rest)) (Nat.succ_le_succ ih)

/-! ### Runs -/

theorem wellFormed_of_ofChar? {c : Char} {t : Token} (h : ofChar? c = some t) : t.WellFormed := by
  unfold ofChar? at h
  split at h
  · obtain rfl := Option.some.inj h
    trivial
  · split at h
    · rename_i hblank
      obtain rfl := Option.some.inj h
      exact hblank
    · cases h

theorem wellFormed_attach {c : Char} (hc : c ≠ '\\') {ts : List Token}
    (h : ∀ t ∈ ts, t.WellFormed) : ∀ t ∈ attach c ts, t.WellFormed := by
  have hone : (text [c]).WellFormed := ⟨List.cons_ne_nil c [], by simpa using Ne.symm hc⟩
  cases ts with
  | nil => simpa [attach] using hone
  | cons u ts =>
    obtain ⟨hu, hts⟩ := List.forall_mem_cons.1 h
    -- the character joins a run that stands first; in front of anything else it is a run of its own
    cases u with
    | text run =>
      have hrun : (text (c :: run)).WellFormed := by
        refine ⟨List.cons_ne_nil c run, fun hmem => ?_⟩
        rcases List.mem_cons.1 hmem with heq | hmem
        · exact hc heq.symm
        · exact hu.2 hmem
      exact List.forall_mem_cons.2 ⟨hrun, hts⟩
    | blank | backslash | mark =>
      exact List.forall_mem_cons.2 ⟨hone, List.forall_mem_cons.2 ⟨hu, hts⟩⟩

/-- **Every token is well formed**: no run is empty, and none has a backslash in it. -/
theorem wellFormed_scan (s : Text) : ∀ t ∈ scan s, t.WellFormed := by
  fun_induction scan s with
  | case1 => simp
  | case2 => simp
  | case3 rest ih => exact List.forall_mem_cons.2 ⟨trivial, ih⟩
  | case4 c rest hc ih => exact wellFormed_attach hc ih
  | case5 c rest h₁ h₂ h₃ t ht ih => exact List.forall_mem_cons.2 ⟨wellFormed_of_ofChar? ht, ih⟩
  | case6 c rest h₁ h₂ h₃ ht ih => exact wellFormed_attach (Text.ne_backslash h₁ h₃) ih

/-! ### Marks and escapes -/

theorem scan_mark (m : Mark) (s : Text) : scan (m.char :: s) = mark m :: scan s := by
  cases m <;> rfl

theorem scan_escape_backslash (s : Text) : scan ('\\' :: '\\' :: s) = backslash :: scan s := rfl

theorem scan_escape {c : Char} (h : c ≠ '\\') (s : Text) :
    scan ('\\' :: c :: s) = attach c (scan s) := by
  rw [scan]
  exact h

/-! ### One character -/

theorem scan_of_ofChar? {c : Char} {t : Token} (h : ofChar? c = some t) (s : Text) :
    scan (c :: s) = t :: scan s := by
  have hc : c ≠ '\\' := by
    rintro rfl
    cases h
  cases s <;> simp [scan, hc, h]

theorem scan_of_plain {c : Char} (hc : c ≠ '\\') (h : ofChar? c = none) (s : Text) :
    scan (c :: s) = attach c (scan s) := by
  cases s <;> simp [scan, hc, h]

/-! ### Runs of characters -/

/-- Plain characters in front of tokens that do not begin with a run are a run of their own. -/
theorem foldr_attach {run : Text} (hne : run ≠ []) {ts : List Token}
    (h : ∀ t ∈ ts.head?, t.isText = false) : run.foldr attach ts = text run :: ts := by
  induction run with
  | nil => exact absurd rfl hne
  | cons c run ih =>
    rw [List.foldr_cons]
    by_cases hrun : run = []
    · subst hrun
      cases ts with
      | nil => rfl
      | cons t ts =>
        cases t with
        | text r => simp [isText] at h
        | blank | backslash | mark => rfl
    · rw [ih hrun]
      rfl

end Token

/-- No character of the text is a token of its own, and the text does not end in the middle of an
escape. -/
def Text.IsRun (s : Text) : Prop :=
  s.dangles = false ∧ ∀ e ∈ s.characters, Token.separator? e = none

/-- No character is a mark, white space or a backslash. -/
def Text.Plain (s : Text) : Prop := ∀ c ∈ s, c ≠ '\\' ∧ Token.ofChar? c = none

instance (s : Text) : Decidable s.Plain := List.decidableBAll _ s

theorem Text.Plain.bare {s : Text} (h : s.Plain) : '\\' ∉ s := fun hmem => (h _ hmem).1 rfl

namespace Token

/-- **The characters of a run are attached one by one** to what stands behind it. -/
theorem scan_isRun_append {s : Text} (h : s.IsRun) (rest : Text) :
    scan (s ++ rest) = (Text.unescaped s).foldr attach (scan rest) := by
  obtain ⟨hd, h⟩ := h
  -- every character is plain or escaped, so each is attached to what follows
  fun_induction Text.dangles s with
  | case1 => rfl
  | case2 => simp at hd
  | case3 c s ih =>
    obtain ⟨hc, hs⟩ := List.forall_mem_cons.1 h
    have hne : c ≠ '\\' := by
      rintro rfl
      cases hc
    rw [List.cons_append, List.cons_append, scan_escape hne, ih hd hs]
    rfl
  | case4 c s h₁ h₂ ih =>
    have hne := Text.ne_backslash h₁ h₂
    rw [Text.characters_cons hne] at h
    obtain ⟨hc, hs⟩ := List.forall_mem_cons.1 h
    have hunescaped : Text.unescaped (c :: s) = c :: Text.unescaped s := by
      simp [Text.unescaped]
    rw [List.cons_append, scan_of_plain hne hc, ih hd hs, hunescaped]
    rfl

theorem scan_isRun_mark {s : Text} (h : s.IsRun) (hne : Text.unescaped s ≠ []) (m : Mark)
    (rest : Text) :
    scan (s ++ m.char :: rest) = text (Text.unescaped s) :: mark m :: scan rest := by
  rw [scan_isRun_append h, scan_mark, foldr_attach hne (by simp [isText])]

/-- A text that stands for plain characters is a run, whichever of them are escaped. -/
theorem isRun_of_plain_unescaped {s : Text} (hd : s.dangles = false)
    (h : (Text.unescaped s).Plain) : s.IsRun := by
  refine ⟨hd, fun e he => ?_⟩
  obtain ⟨hne, hnone⟩ := h e.2 (Text.unescaped_eq_map_characters s ▸ List.mem_map_of_mem he)
  obtain ⟨escaped, c⟩ := e
  cases escaped with
  | true => exact if_neg hne
  | false => exact hnone

theorem isRun_of_plain {s : Text} (h : s.Plain) : s.IsRun := by
  refine isRun_of_plain_unescaped (Text.dangles_eq_false h.bare) ?_
  rwa [Text.unescaped_eq_self h.bare]

/-- A text without backslashes, escaped, is a run. -/
theorem isRun_escaped {s : Text} (h : '\\' ∉ s) : (Text.escaped s).IsRun := by
  refine ⟨Text.dangles_escaped s, fun e he => ?_⟩
  rw [Text.characters_escaped] at he
  obtain ⟨c, hc, rfl⟩ := List.mem_map.1 he
  have hne : c ≠ '\\' := by
    rintro rfl
    exact h hc
  exact if_neg hne

/-! ### Texts put together -/

/-- Tokens behind one another: a run at the end of the first ones and a run at the beginning of the
others are one run. -/
def join : List Token → List Token → List Token
  | [], us => us
  | [text r], text r' :: us => text (r ++ r') :: us
  | t :: ts, us => t :: join ts us

/-- Where no run goes on across the seam, that is all tokens in order. -/
theorem join_cases (ts us : List Token) : join ts us = ts ++ us ∨ ∃ ts' r r' us',
    ts = ts' ++ [text r] ∧ us = text r' :: us' ∧ join ts us = ts' ++ text (r ++ r') :: us' := by
  fun_induction join ts us with
  | case1 us => exact .inl rfl
  | case2 r r' us => exact .inr ⟨[], r, r', us, rfl, rfl, rfl⟩
  | case3 t ts us h ih =>
    rcases ih with hjoin | ⟨ts', r, r', us', rfl, rfl, hjoin⟩
    · exact .inl (congrArg (t :: ·) hjoin)
    · exact .inr ⟨t :: ts', r, r', us', rfl, rfl, congrArg (t :: ·) hjoin⟩

theorem attach_join (c : Char) (ts us : List Token) :
    attach c (join ts us) = join (attach c ts) us := by
  cases ts with
  | nil =>
    cases us with
    | nil => rfl
    | cons u us => cases u <;> rfl
  | cons t ts =>
    cases t with
    | text r =>
      cases ts with
      | nil =>
        cases us with
        | nil => rfl
        | cons u us => cases u <;> rfl
      | cons t' ts => rfl
    | blank | backslash | mark => rfl

theorem join_cons_of_not_text {t : Token} (h : t.isText = false) (ts us : List Token) :
    join (t :: ts) us = t :: join ts us := by
  cases t with
  | text r => cases h
  | blank | backslash | mark => rfl

theorem isText_of_ofChar? {c : Char} {t : Token} (h : ofChar? c = some t) : t.isText = false := by
  unfold ofChar? at h
  split at h
  · obtain rfl := Option.some.inj h
    rfl
  · split at h
    · obtain rfl := Option.some.inj h
      rfl
    · cases h

/-- **Scanning texts behind one another** cuts them at the same places, but for a run that goes on
across the seam.  The first text must not end in the middle of an escape. -/
theorem scan_append {a : Text} (h : a.dangles = false) (b : Text) :
    scan (a ++ b) = join (scan a) (scan b) := by
  -- attaching and joining change places, so the seam is met only where `a` ends
  fun_induction scan a with
  | case1 => rfl
  | case2 => simp [Text.dangles] at h
  | case3 rest ih =>
    have hrest : Text.dangles rest = false := by simpa [Text.dangles] using h
    rw [List.cons_append, List.cons_append, scan_escape_backslash, ih hrest]
    rfl
  | case4 c rest hc ih =>
    have hrest : Text.dangles rest = false := by simpa [Text.dangles] using h
    rw [List.cons_append, List.cons_append, scan_escape hc, ih hrest, attach_join]
  | case5 c rest h₁ h₂ h₃ t ht ih =>
    rw [Text.dangles_cons (Text.ne_backslash h₁ h₃)] at h
    rw [List.cons_append, scan_of_ofChar? ht, ih h,
      join_cons_of_not_text (isText_of_ofChar? ht)]
  | case6 c rest h₁ h₂ h₃ ht ih =>
    have hc := Text.ne_backslash h₁ h₃
    rw [Text.dangles_cons hc] at h
    rw [List.cons_append, scan_of_plain hc ht, ih h, attach_join]

end Token

end TextGrammar
