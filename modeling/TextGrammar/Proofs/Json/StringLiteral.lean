import Mathlib.Tactic.SplitIfs
import TextGrammar.Json.Spelling

/-!
# TextGrammar.Proofs.Json.StringLiteral — reading strings

Reading a string behind its opening quote succeeds with a text exactly if a spelling of the text and a
closing quote stand there (`readString_eq_ok_iff`).  While an escape is being read, the part of it that
has been read is still to be spelled (`Pending`); this carries the induction over the text.
-/

namespace TextGrammar.Json

/-! ### Digits and letters -/

theorem hexValue?_digitChar : ∀ d < 16, hexValue? d.digitChar = some d := by decide

theorem hexValue?_toUpper_digitChar : ∀ d < 16, hexValue? d.digitChar.toUpper = some d := by decide

theorem ofNat_digit : ∀ d < 10, Char.ofNat ('0'.toNat + d) = d.digitChar := by decide

theorem ofNat_lowerDigit : ∀ d < 6, Char.ofNat ('a'.toNat + d) = (d + 10).digitChar := by decide

theorem ofNat_upperDigit : ∀ d < 6, Char.ofNat ('A'.toNat + d) = (d + 10).digitChar.toUpper := by
  decide

/-- A character behind another one in the order of code points. -/
theorem eq_ofNat_add {a c : Char} (h : a.toNat ≤ c.toNat) :
    c = Char.ofNat (a.toNat + (c.toNat - a.toNat)) := by
  rw [show a.toNat + (c.toNat - a.toNat) = c.toNat by omega, Char.ofNat_toNat]

/-- The digits that are read are the hexadecimal ones. -/
theorem hexValue?_eq_some_iff {c : Char} {d : Nat} : hexValue? c = some d ↔ IsHexDigit c d := by
  constructor
  · intro h
    unfold hexValue? at h
    simp only [Bool.and_eq_true, decide_eq_true_eq, Char.le_def, UInt32.le_iff_toNat_le] at h
    -- three spans of characters, each a digit that is counted from the span's first character
    split_ifs at h with hdigit hlower hupper
    · have hlt : c.toNat - '0'.toNat < 10 :=
        Nat.sub_lt_right_of_lt_add hdigit.1 (Nat.lt_succ_of_le hdigit.2)
      obtain rfl := Option.some.inj h
      exact ⟨by omega, .inl ((eq_ofNat_add hdigit.1).trans (ofNat_digit _ hlt))⟩
    · have hlt : c.toNat - 'a'.toNat < 6 :=
        Nat.sub_lt_right_of_lt_add hlower.1 (Nat.lt_succ_of_le hlower.2)
      obtain rfl := Option.some.inj h
      exact ⟨by omega, .inl ((eq_ofNat_add hlower.1).trans (ofNat_lowerDigit _ hlt))⟩
    · have hlt : c.toNat - 'A'.toNat < 6 :=
        Nat.sub_lt_right_of_lt_add hupper.1 (Nat.lt_succ_of_le hupper.2)
      obtain rfl := Option.some.inj h
      exact ⟨by omega, .inr ((eq_ofNat_add hupper.1).trans (ofNat_upperDigit _ hlt))⟩
  · rintro ⟨hd, rfl | rfl⟩
    · exact hexValue?_digitChar d hd
    · exact hexValue?_toUpper_digitChar d hd

/-- The letters that are read behind a backslash are the ones of the table. -/
theorem unescape?_eq_some_iff {e c : Char} : unescape? e = some c ↔ (e, c) ∈ letterEscapes := by
  constructor
  · intro h
    unfold unescape? at h
    split at h <;> simp_all [letterEscapes, eq_comm]
  · intro h
    simp only [letterEscapes, List.mem_cons, Prod.mk.injEq, List.not_mem_nil, or_false] at h
    rcases h with ⟨rfl, rfl⟩ | ⟨rfl, rfl⟩ | ⟨rfl, rfl⟩ | ⟨rfl, rfl⟩ | ⟨rfl, rfl⟩ | ⟨rfl, rfl⟩ |
      ⟨rfl, rfl⟩ | ⟨rfl, rfl⟩ <;> rfl

/-! ### Four digits -/

theorem HexDigits.lt {digits : Text} {n : Nat} (h : HexDigits digits n) :
    n < Nat.pow 16 digits.length := by
  induction h with
  | nil => decide
  | @snoc digits n d c front last ih =>
    have hd := last.1
    have hpow : Nat.pow 16 (digits.length + 1) = Nat.pow 16 digits.length * 16 := rfl
    rw [List.length_append, List.length_singleton]
    omega

theorem FourDigits.lt {digits : Text} {n : Nat} (h : FourDigits digits n) : n < 0x10000 := by
  have hn := h.1.lt
  rw [h.2] at hn
  exact hn

/-- Up to three digits of an escape are read one after the other. -/
theorem readStringFrom_hex {digits : Text} {n : Nat} (h : HexDigits digits n)
    (hlen : digits.length ≤ 3) (high : Option Nat) (s : Text) :
    readStringFrom (.hex high 0 0) (digits ++ s) = readStringFrom (.hex high digits.length n) s := by
  induction h generalizing s with
  | nil => rfl
  | snoc front last ih =>
    rw [List.length_append, List.length_singleton] at hlen ⊢
    rw [List.append_assoc, List.singleton_append, ih (by omega), readStringFrom,
      hexValue?_eq_some_iff.2 last]
    exact if_pos (by omega)

/-- The fourth digit ends an escape. -/
theorem readStringFrom_fourDigits {digits : Text} {n : Nat} (h : FourDigits digits n)
    (high : Option Nat) (s : Text) :
    readStringFrom (.hex high 0 0) (digits ++ s) =
      match unit16 high n with
      | .char c => prependTo c (readStringFrom .none s)
      | .high h => readStringFrom (.afterHigh h) s
      | .lone => .error .loneSurrogate := by
  obtain ⟨hdigits, hlen⟩ := h
  cases hdigits with
  | nil => cases hlen
  | @snoc front n d c hfront last =>
    rw [List.length_append, List.length_singleton] at hlen
    rw [List.append_assoc, List.singleton_append, readStringFrom_hex hfront (by omega),
      readStringFrom, hexValue?_eq_some_iff.2 last]
    exact if_neg (by omega)

/-! ### Surrogates -/

/-- No character has the code point of half a surrogate pair, and none is beyond the last plane. -/
theorem toNat_cases (c : Char) : c.toNat < 0xD800 ∨ 0xDFFF < c.toNat ∧ c.toNat < 0x110000 := c.valid

theorem between_iff {a b n : Nat} : (a ≤ n && n ≤ b) = true ↔ a ≤ n ∧ n ≤ b := by
  rw [Bool.and_eq_true, decide_eq_true_eq, decide_eq_true_eq]

theorem unit16_of_char {c : Char} (h : c.toNat < 0x10000) : unit16 none c.toNat = .char c := by
  have hc := toNat_cases c
  unfold unit16
  rw [if_neg (mt between_iff.1 (by omega)), if_neg (mt between_iff.1 (by omega)), Char.ofNat_toNat]

theorem unit16_highSurrogate (c : Char) : unit16 none (highSurrogate c) = .high (highSurrogate c) := by
  have hc := toNat_cases c
  exact if_pos (between_iff.2 (by unfold highSurrogate; omega))

theorem unit16_lowSurrogate {c : Char} (h : 0x10000 ≤ c.toNat) :
    unit16 (some (highSurrogate c)) (lowSurrogate c) = .char c := by
  have hlow : 0xDC00 ≤ lowSurrogate c ∧ lowSurrogate c ≤ 0xDFFF := by
    unfold lowSurrogate
    omega
  have hcode : 0x10000 + (highSurrogate c - 0xD800) * 0x400 + (lowSurrogate c - 0xDC00) = c.toNat := by
    unfold highSurrogate lowSurrogate
    omega
  unfold unit16
  dsimp only
  rw [if_pos (between_iff.2 hlow), hcode, Char.ofNat_toNat]

theorem toNat_ofNat_of_isValidChar {n : Nat} (h : n.isValidChar) : (Char.ofNat n).toNat = n := by
  rw [Char.ofNat, dif_pos h]
  rfl

theorem toNat_of_unit16 {n : Nat} {c : Char} (hn : n < 0x10000) (h : unit16 none n = .char c) :
    c.toNat = n := by
  unfold unit16 at h
  dsimp only at h
  split_ifs at h with hhigh hlow
  rw [between_iff] at hhigh hlow
  cases h
  exact toNat_ofNat_of_isValidChar (by unfold Nat.isValidChar; omega)

theorem eq_of_unit16_high {n m : Nat} (h : unit16 none n = .high m) :
    m = n ∧ 0xD800 ≤ n ∧ n ≤ 0xDBFF := by
  unfold unit16 at h
  dsimp only at h
  split_ifs at h with hhigh hlow
  cases h
  exact ⟨rfl, between_iff.1 hhigh⟩

/-- The two halves of a pair are those of the character that it stands for. -/
theorem surrogates_of_unit16 {high low : Nat} {c : Char} (hhigh : 0xD800 ≤ high ∧ high ≤ 0xDBFF)
    (h : unit16 (some high) low = .char c) :
    0x10000 ≤ c.toNat ∧ highSurrogate c = high ∧ lowSurrogate c = low := by
  unfold unit16 at h
  dsimp only at h
  split_ifs at h with hlow
  rw [between_iff] at hlow
  have hcode : c.toNat = 0x10000 + (high - 0xD800) * 0x400 + (low - 0xDC00) := by
    rw [← Unit16.char.inj h]
    exact toNat_ofNat_of_isValidChar (by unfold Nat.isValidChar; omega)
  unfold highSurrogate lowSurrogate
  omega

theorem unit16_some_ne_high (high low n : Nat) : unit16 (some high) low ≠ .high n := by
  unfold unit16
  dsimp only
  split_ifs <;> simp

/-! ### Reading what is spelled -/

theorem ne_u_of_mem_letterEscapes {e c : Char} (h : (e, c) ∈ letterEscapes) : e ≠ 'u' := by
  rintro rfl
  rw [← unescape?_eq_some_iff] at h
  cases h

theorem readString_spelled {t body : Text} (h : SpelledText t body) (rest : Text) :
    readString (body ++ '"' :: rest) = .ok (t, rest) := by
  unfold readString
  have hquote : ('\\' : Char) ≠ '"' := by decide
  induction h with
  | nil => rfl
  | plain quote backslash control _ ih =>
    rw [List.cons_append, readStringFrom, if_neg quote, if_neg backslash, if_neg (by omega), ih]
    rfl
  -- behind the backslash the reader goes on according to the letter; `u` is no letter escape
  | letter escape _ ih =>
    rw [List.cons_append, List.cons_append, readStringFrom, if_neg hquote, if_pos rfl, readStringFrom,
      if_neg (ne_u_of_mem_letterEscapes escape), unescape?_eq_some_iff.2 escape]
    dsimp only
    rw [ih]
    rfl
  -- no character has the code point of half a pair, so the reader waits for no second half
  | unit code _ ih =>
    rw [List.cons_append, List.cons_append, List.append_assoc, readStringFrom, if_neg hquote,
      if_pos rfl, readStringFrom, if_pos rfl, readStringFrom_fourDigits code, unit16_of_char code.lt]
    dsimp only
    rw [ih]
    rfl
  | pair beyond high low _ ih =>
    rw [List.cons_append, List.cons_append, List.append_assoc, readStringFrom, if_neg hquote,
      if_pos rfl, readStringFrom, if_pos rfl, readStringFrom_fourDigits high, unit16_highSurrogate]
    dsimp only
    rw [List.cons_append, List.cons_append, List.append_assoc, readStringFrom, if_pos rfl,
      readStringFrom, if_pos rfl, readStringFrom_fourDigits low, unit16_lowSurrogate beyond]
    dsimp only
    rw [ih]
    rfl

/-! ### What is read is spelled -/

/-- The part of an escape that has been read. -/
inductive Pending : Escape → Text → Prop
  | none : Pending .none []
  | backslash : Pending .backslash ['\\']
  | first {digits : Text} {n : Nat} (read : HexDigits digits n) (more : digits.length < 4) :
    Pending (.hex none digits.length n) ('\\' :: 'u' :: digits)
  | high {digits : Text} {h : Nat} (read : FourDigits digits h) (isHigh : 0xD800 ≤ h ∧ h ≤ 0xDBFF) :
    Pending (.afterHigh h) ('\\' :: 'u' :: digits)
  | highBackslash {digits : Text} {h : Nat} (read : FourDigits digits h)
    (isHigh : 0xD800 ≤ h ∧ h ≤ 0xDBFF) :
    Pending (.afterHighBackslash h) ('\\' :: 'u' :: (digits ++ ['\\']))
  | second {highs digits : Text} {h n : Nat} (high : FourDigits highs h)
    (isHigh : 0xD800 ≤ h ∧ h ≤ 0xDBFF) (read : HexDigits digits n) (more : digits.length < 4) :
    Pending (.hex (some h) digits.length n) ('\\' :: 'u' :: (highs ++ '\\' :: 'u' :: digits))

theorem prependTo_eq_ok {c : Char} {r : Except Error (Text × Text)} {t rest : Text} :
    prependTo c r = .ok (t, rest) ↔ ∃ u, r = .ok (u, rest) ∧ t = c :: u := by
  cases r with
  | error e => simp [prependTo, Except.map]
  | ok p =>
    obtain ⟨u, v⟩ := p
    simp only [prependTo, Except.map, Except.ok.injEq, Prod.mk.injEq]
    constructor
    · rintro ⟨rfl, rfl⟩
      exact ⟨u, ⟨rfl, rfl⟩, rfl⟩
    · rintro ⟨u', ⟨rfl, rfl⟩, rfl⟩
      exact ⟨rfl, rfl⟩

/-- What reading a digit of an escape comes to: more digits are due, or the escape is a character, or it
is the first half of a pair. -/
theorem readStringFrom_hex_cases {high : Option Nat} {count value : Nat} {c : Char} {s t rest : Text}
    (h : readStringFrom (.hex high count value) (c :: s) = .ok (t, rest)) :
    ∃ d, IsHexDigit c d ∧
      ((count < 3 ∧ readStringFrom (.hex high (count + 1) (value * 16 + d)) s = .ok (t, rest)) ∨
        (3 ≤ count ∧ ∃ e u, unit16 high (value * 16 + d) = .char e ∧
          readStringFrom .none s = .ok (u, rest) ∧ t = e :: u) ∨
        (3 ≤ count ∧ ∃ m, unit16 high (value * 16 + d) = .high m ∧
          readStringFrom (.afterHigh m) s = .ok (t, rest))) := by
  rw [readStringFrom] at h
  cases hd : hexValue? c with
  | none =>
    rw [hd] at h
    dsimp only at h
    split_ifs at h
  | some d =>
    rw [hd] at h
    dsimp only at h
    refine ⟨d, hexValue?_eq_some_iff.1 hd, ?_⟩
    -- up to the third digit the escape grows; the fourth makes it a character, or half a pair
    split_ifs at h with hcount
    · exact .inl ⟨hcount, h⟩
    · cases hu : unit16 high (value * 16 + d) with
      | char e =>
        rw [hu] at h
        obtain ⟨u, hread, rfl⟩ := prependTo_eq_ok.1 h
        exact .inr (.inl ⟨by omega, e, u, rfl, hread, rfl⟩)
      | high m =>
        rw [hu] at h
        exact .inr (.inr ⟨by omega, m, rfl, h⟩)
      | lone =>
        rw [hu] at h
        cases h

/-- By induction on the text; what is pending of an escape is spelled in front of it. -/
theorem spelled_of_readStringFrom {s : Text} {e : Escape} {p t rest : Text} (hp : Pending e p)
    (h : readStringFrom e s = .ok (t, rest)) :
    ∃ body, s = body ++ '"' :: rest ∧ SpelledText t (p ++ body) := by
  -- on the text, for any escape in progress: `Pending` says which part `p` of it has been read, and
  -- that part is put back in front of the body
  induction s generalizing e p t with
  | nil => cases e <;> cases h
  | cons c s ih =>
    cases hp with
    | none =>
      rw [readStringFrom] at h
      split_ifs at h with hquote hbackslash hcontrol
      · cases h
        exact ⟨[], by rw [hquote]; rfl, .nil⟩
      · obtain ⟨body, rfl, hbody⟩ := ih .backslash h
        exact ⟨'\\' :: body, by rw [hbackslash]; rfl, hbody⟩
      · obtain ⟨u, hu, rfl⟩ := prependTo_eq_ok.1 h
        obtain ⟨body, rfl, hbody⟩ := ih .none hu
        exact ⟨c :: body, rfl, .plain hquote hbackslash (by omega) hbody⟩
    | backslash =>
      rw [readStringFrom] at h
      split_ifs at h with hu
      · obtain ⟨body, rfl, hbody⟩ := ih (.first .nil (by decide)) h
        exact ⟨'u' :: body, by rw [hu]; rfl, hbody⟩
      · cases hc : unescape? c with
        | none =>
          rw [hc] at h
          cases h
        | some d =>
          rw [hc] at h
          obtain ⟨u, hread, rfl⟩ := prependTo_eq_ok.1 h
          obtain ⟨body, rfl, hbody⟩ := ih .none hread
          exact ⟨c :: body, rfl, .letter (unescape?_eq_some_iff.1 hc) hbody⟩
    -- digits of a first unit: more of them, a character, or the first half of a pair
    | @first digits n read more =>
      obtain ⟨d, hd, hcases⟩ := readStringFrom_hex_cases h
      have hnext := read.snoc hd
      have hlen : (digits ++ [c]).length = digits.length + 1 := List.length_append
      rcases hcases with ⟨hcount, h⟩ | ⟨hcount, e, u, hu, hread, rfl⟩ | ⟨hcount, m, hu, h⟩
      · rw [← hlen] at h
        obtain ⟨body, rfl, hbody⟩ := ih (.first hnext (by omega)) h
        refine ⟨c :: body, rfl, ?_⟩
        simpa using hbody
      · have hcode : FourDigits (digits ++ [c]) (n * 16 + d) := ⟨hnext, by omega⟩
        obtain ⟨body, rfl, hbody⟩ := ih .none hread
        refine ⟨c :: body, rfl, ?_⟩
        rw [← toNat_of_unit16 hcode.lt hu] at hcode
        simpa using SpelledText.unit hcode hbody
      · obtain ⟨rfl, hhigh⟩ := eq_of_unit16_high hu
        obtain ⟨body, rfl, hbody⟩ := ih (.high ⟨hnext, by omega⟩ hhigh) h
        refine ⟨c :: body, rfl, ?_⟩
        simpa using hbody
    | high read isHigh =>
      rw [readStringFrom] at h
      split_ifs at h with hbackslash
      obtain ⟨body, rfl, hbody⟩ := ih (.highBackslash read isHigh) h
      refine ⟨'\\' :: body, by rw [hbackslash]; rfl, ?_⟩
      simpa using hbody
    | highBackslash read isHigh =>
      rw [readStringFrom] at h
      split_ifs at h with hu
      obtain ⟨body, rfl, hbody⟩ := ih (.second read isHigh .nil (by decide)) h
      refine ⟨'u' :: body, by rw [hu]; rfl, ?_⟩
      simpa using hbody
    -- digits of a second unit: behind the first half only a second half makes a character
    | @second highs digits high n hhighs isHigh read more =>
      obtain ⟨d, hd, hcases⟩ := readStringFrom_hex_cases h
      have hnext := read.snoc hd
      have hlen : (digits ++ [c]).length = digits.length + 1 := List.length_append
      rcases hcases with ⟨hcount, h⟩ | ⟨hcount, e, u, hu, hread, rfl⟩ | ⟨hcount, m, hu, h⟩
      · rw [← hlen] at h
        obtain ⟨body, rfl, hbody⟩ := ih (.second hhighs isHigh hnext (by omega)) h
        refine ⟨c :: body, rfl, ?_⟩
        simpa using hbody
      · have hcode : FourDigits (digits ++ [c]) (n * 16 + d) := ⟨hnext, by omega⟩
        obtain ⟨beyond, hhigh, hlow⟩ := surrogates_of_unit16 isHigh hu
        obtain ⟨body, rfl, hbody⟩ := ih .none hread
        refine ⟨c :: body, rfl, ?_⟩
        rw [← hhigh] at hhighs
        rw [← hlow] at hcode
        simpa using SpelledText.pair beyond hhighs hcode hbody
      · exact absurd hu (unit16_some_ne_high _ _ _)

/-- **Reading a string** succeeds exactly where one is spelled, up to the closing quote. -/
theorem readString_eq_ok_iff {s t rest : Text} :
    readString s = .ok (t, rest) ↔ ∃ body, s = body ++ '"' :: rest ∧ SpelledText t body := by
  constructor
  · exact spelled_of_readStringFrom .none
  · rintro ⟨body, rfl, h⟩
    exact readString_spelled h rest

end TextGrammar.Json
