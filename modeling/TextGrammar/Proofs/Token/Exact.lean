import TextGrammar.Proofs.Token.Stream

/-!
# TextGrammar.Proofs.Token.Exact — the scanner is exact

Scanning is the inverse of writing valid tokens down.  Both sides are compared piece by piece: the tokens
of a text, cut into single characters, are what its characters are one by one (`flatMap_cut_scan`), and
the pieces determine a valid list of tokens (`assemble_cut`).  So the tokens of a text are the one valid
list with the pieces of the text, and a valid list is scanned back from its grammar text (`scan_exact`).
-/

namespace TextGrammar.Token

/-! ### The pieces of tokens -/

theorem cut_of_not_text {t : Token} (h : t.isText = false) : t.cut = [t] := by
  cases t with
  | text run => cases h
  | blank | backslash | mark => rfl

theorem flatMap_cut_attach (c : Char) (ts : List Token) :
    (attach c ts).flatMap cut = text [c] :: ts.flatMap cut := by
  cases ts with
  | nil => rfl
  | cons t ts => cases t <;> rfl

/-- **Cut into pieces, the tokens are the characters of the text** one by one. -/
theorem flatMap_cut_scan (s : Text) :
    (scan s).flatMap cut = (Text.characters s).map ofCharacter := by
  -- on the scanner's cases: the end, a dangling backslash, a doubled one, an escape, a character
  -- that is a token, and a plain one
  fun_induction scan s with
  | case1 => rfl
  | case2 => rfl
  | case3 rest ih => simpa [Text.characters, ofCharacter, separator?, cut] using ih
  | case4 c rest hc ih =>
    have hpiece : ofCharacter (true, c) = text [c] := by
      have hc' : c ≠ '\\' := hc
      simp [ofCharacter, separator?, hc']
    simp [Text.characters, flatMap_cut_attach, hpiece, ih]
  | case5 c rest h₁ h₂ h₃ t ht ih =>
    have hpiece : ofCharacter (false, c) = t := by simp [ofCharacter, separator?, ht]
    simp [Text.characters, cut_of_not_text (isText_of_ofChar? ht), hpiece, ih]
  | case6 c rest h₁ h₂ h₃ ht ih =>
    have hpiece : ofCharacter (false, c) = text [c] := by simp [ofCharacter, separator?, ht]
    simp [Text.characters, flatMap_cut_attach, hpiece, ih]

/-- The pieces that are no runs are the tokens that are none. -/
theorem filter_not_isText_cut (ts : List Token) :
    (ts.flatMap cut).filter (fun t => !t.isText) = ts.filter fun t => !t.isText := by
  induction ts with
  | nil => rfl
  | cons t ts ih =>
    cases t with
    | text run => simp [cut, ih]
    | blank | backslash | mark => simpa [cut, isText] using ih

theorem isText_of_separator? {e : Bool × Char} {t : Token} (h : separator? e = some t) :
    t.isText = false := by
  obtain ⟨escaped, c⟩ := e
  cases escaped with
  | true =>
    by_cases hc : c = '\\'
    · obtain rfl : backslash = t := by simpa [separator?, hc] using h
      rfl
    · simp [separator?, hc] at h
  | false => exact isText_of_ofChar? h

/-- Among what the characters of a text are, no runs are the tokens of their own. -/
theorem filter_not_isText_ofCharacter (es : List (Bool × Char)) :
    (es.map ofCharacter).filter (fun t => !t.isText) = es.filterMap separator? := by
  induction es with
  | nil => rfl
  | cons e es ih =>
    cases h : separator? e with
    | none => simp [ofCharacter, h, ih]
    | some t => simp [ofCharacter, h, isText_of_separator? h, ih]

/-! ### Valid lists of tokens -/

theorem runsApart_cons {t : Token} {ts : List Token} :
    RunsApart (t :: ts) ↔ (t.isText = true → ∀ u ∈ ts.head?, u.isText = false) ∧ RunsApart ts := by
  cases ts with
  | nil => cases t <;> simp [RunsApart]
  | cons u us => cases t <;> cases u <;> simp [RunsApart, isText]

theorem runsApart_attach (c : Char) {ts : List Token} (h : RunsApart ts) :
    RunsApart (attach c ts) := by
  cases ts with
  | nil => trivial
  | cons t ts =>
    cases t with
    | text run => exact runsApart_cons.2 ⟨(runsApart_cons.1 h).1, (runsApart_cons.1 h).2⟩
    | blank | backslash | mark => exact runsApart_cons.2 ⟨by simp [isText], h⟩

/-- **No two runs stand side by side** among the tokens of a text. -/
theorem runsApart_scan (s : Text) : RunsApart (scan s) := by
  fun_induction scan s with
  | case1 => trivial
  | case2 => trivial
  | case3 rest ih => exact runsApart_cons.2 ⟨by simp [isText], ih⟩
  | case4 c rest hc ih => exact runsApart_attach c ih
  | case5 c rest h₁ h₂ h₃ t ht ih =>
    exact runsApart_cons.2 ⟨by simp [isText_of_ofChar? ht], ih⟩
  | case6 c rest h₁ h₂ h₃ ht ih => exact runsApart_attach c ih

theorem valid_scan (s : Text) : Valid (scan s) := ⟨wellFormed_scan s, runsApart_scan s⟩

theorem Valid.tail {t : Token} {ts : List Token} (h : Valid (t :: ts)) : Valid ts :=
  ⟨(List.forall_mem_cons.1 h.1).2, (runsApart_cons.1 h.2).2⟩

/-! ### From pieces to tokens -/

/-- The tokens made of pieces: runs of one character that stand side by side become one run. -/
def assemble : List Token → List Token
  | [] => []
  | text run :: ts => run.foldr attach (assemble ts)
  | t :: ts => t :: assemble ts

theorem assemble_runs (run : Text) (ts : List Token) :
    assemble ((run.map fun c => text [c]) ++ ts) = run.foldr attach (assemble ts) := by
  induction run with
  | nil => rfl
  | cons c run ih =>
    rw [List.map_cons, List.cons_append, assemble, ih]
    rfl

/-- **The pieces determine a valid list of tokens.** -/
theorem assemble_cut {ts : List Token} (h : Valid ts) : assemble (ts.flatMap cut) = ts := by
  induction ts with
  | nil => rfl
  | cons t ts ih =>
    have hrest := ih h.tail
    rw [List.flatMap_cons]
    cases t with
    | text run =>
      have hrun : run ≠ [] := (h.1 (text run) (by simp)).1
      rw [cut, assemble_runs, hrest]
      exact foldr_attach hrun ((runsApart_cons.1 h.2).1 rfl)
    | blank | backslash | mark => exact congrArg (_ :: ·) hrest

/-! ### Grammar texts of tokens -/

theorem ne_backslash_of_isBlank {c : Char} (h : isBlank c = true) : c ≠ '\\' := by
  rintro rfl
  exact absurd h (by decide)

theorem ofChar?_blank {c : Char} (h : isBlank c = true) : ofChar? c = some (blank c) := by
  have hmark : Mark.ofChar? c = none := by
    rw [Option.eq_none_iff_forall_ne_some]
    intro m hm
    rw [Mark.ofChar?_eq_some_iff.1 hm] at h
    cases m <;> exact absurd h (by decide)
  rw [ofChar?, hmark]
  exact if_pos h

theorem dangles_render {t : Token} (h : t.WellFormed) : t.render.dangles = false := by
  cases t with
  | text run => exact Text.dangles_escaped run
  | blank c => rw [render, Text.dangles_cons (ne_backslash_of_isBlank h), Text.dangles]
  | backslash => rfl
  | mark m => cases m <;> rfl

/-- The characters of a token's grammar text are its pieces. -/
theorem characters_render {t : Token} (h : t.WellFormed) :
    (Text.characters t.render).map ofCharacter = t.cut := by
  cases t with
  | text run =>
    rw [render, Text.characters_escaped, List.map_map]
    refine List.map_congr_left fun c hc => ?_
    have hne : c ≠ '\\' := fun heq => h.2 (heq ▸ hc)
    simp [ofCharacter, separator?, hne]
  | blank c =>
    simp [render, Text.characters, ne_backslash_of_isBlank h, ofCharacter, separator?,
      ofChar?_blank h, cut]
  | backslash => rfl
  | mark m => cases m <;> rfl

theorem characters_flatMap_render {ts : List Token} (h : ∀ t ∈ ts, t.WellFormed) :
    (Text.characters (ts.flatMap render)).map ofCharacter = ts.flatMap cut := by
  induction ts with
  | nil => rfl
  | cons t ts ih =>
    obtain ⟨ht, hts⟩ := List.forall_mem_cons.1 h
    rw [List.flatMap_cons, Text.characters_append (dangles_render ht), List.map_append,
      characters_render ht, ih hts, List.flatMap_cons]

/-- **A valid list is the tokens of a text** if it has the pieces of the text. -/
theorem eq_scan_of_pieces {ts : List Token} (h : Valid ts) {s : Text}
    (hs : ts.flatMap cut = (Text.characters s).map ofCharacter) : ts = scan s := by
  rw [← assemble_cut h, hs, ← flatMap_cut_scan, assemble_cut (valid_scan s)]

/-- **The scanner is exact.**  Who takes the tokens of a text one after the other gets a valid list and
then nothing more.  The tokens stand for the text without its escapes, and those of them that are no runs
are the doubled backslashes and the unescaped marks and white space, in order; no other valid list has
the pieces of the text.  Every valid list is what is taken from its grammar text. -/
theorem scan_exact :
    (∀ s, Serves s (scan s) ∧ Valid (scan s) ∧ (scan s).flatMap value = Text.unescaped s ∧
      (scan s).filter (fun t => !t.isText) = (Text.characters s).filterMap separator? ∧
      ∀ ts, Valid ts → (ts.flatMap cut = (Text.characters s).map ofCharacter ↔ ts = scan s)) ∧
    ∀ ts, Valid ts → scan (ts.flatMap render) = ts ∧ Serves (ts.flatMap render) ts := by
  constructor
  · intro s
    refine ⟨serves_scan s, valid_scan s, flatMap_value_scan s, ?_, fun ts h => ⟨?_, ?_⟩⟩
    · rw [← filter_not_isText_cut, flatMap_cut_scan, filter_not_isText_ofCharacter]
    · exact eq_scan_of_pieces h
    · rintro rfl
      exact flatMap_cut_scan s
  · intro ts h
    have hscan : scan (ts.flatMap render) = ts :=
      (eq_scan_of_pieces h (characters_flatMap_render h.1).symm).symm
    have hserves := serves_scan (ts.flatMap render)
    rw [hscan] at hserves
    exact ⟨hscan, hserves⟩

/-- Backslashes in front of a mark, an even and an odd number of them, and one at the end. -/
theorem scan_exact_backslashes :
    let s : Text := "a\\\\#\\\\\\# b\\".toList
    let ts : List Token :=
      [text ['a'], backslash, mark .octo, backslash, text ['#'], blank ' ', text ['b']]
    Serves s ts ∧ ts.flatMap value = "a\\#\\# b".toList ∧
      ts.filter (fun t => !t.isText) = [backslash, mark .octo, backslash, blank ' '] ∧
      Valid ts ∧ Serves (ts.flatMap render) ts := by
  intro s ts
  have hscan : scan s = ts := by decide
  obtain ⟨hserves, hvalid, hvalue, hfilter, -⟩ := scan_exact.1 s
  rw [hscan] at hserves hvalid hvalue hfilter
  exact ⟨hserves, hvalue, hfilter, hvalid, (scan_exact.2 ts hvalid).2⟩

end TextGrammar.Token
