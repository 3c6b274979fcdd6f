import TextGrammar.Proofs.Token.Scan
import TextGrammar.Token.Scan

/-!
# TextGrammar.Proofs.Token.Stream — tokens one at a time

Reading one token and going on behind it gives the tokens of the whole text (`scan_eq_of_next?`).  So the
answer to a request is the token whose place is the number of tokens taken before (`getElem?_answers`), and
who takes one token after the other gets those that scanning the whole text finds, and none after them
(`serves_scan`).
-/

namespace TextGrammar.Token

/-! ### Runs -/

/-- The run at the front is scanned as part of the tokens behind it. -/
theorem scan_eq_foldr_readRun (s : Text) :
    scan s = (readRun s).1.foldr attach (scan (readRun s).2) := by
  fun_induction readRun s with
  | case1 => rfl
  | case2 => rfl
  | case3 rest => rfl
  | case4 c rest hc ih => rw [scan_escape hc, ih]; rfl
  | case5 c rest h₁ h₂ h₃ t ht => rfl
  | case6 c rest h₁ h₂ h₃ ht ih => rw [scan_of_plain (Text.ne_backslash h₁ h₃) ht, ih]; rfl

/-- A run goes on up to the end of the text, a doubled backslash, or a token of one character. -/
theorem readRun_cases (s : Text) :
    (readRun s).2 = [] ∨ (∃ rest, (readRun s).2 = '\\' :: '\\' :: rest) ∨
      ∃ c t rest, (readRun s).2 = c :: rest ∧ ofChar? c = some t := by
  fun_induction readRun s with
  | case1 => exact .inl rfl
  | case2 => exact .inl rfl
  | case3 rest => exact .inr (.inl ⟨rest, rfl⟩)
  | case4 c rest hc ih => exact ih
  | case5 c rest h₁ h₂ h₃ t ht => exact .inr (.inr ⟨c, t, rest, rfl, ht⟩)
  | case6 c rest h₁ h₂ h₃ ht ih => exact ih

/-- What ends a run begins no run. -/
theorem not_text_of_readRun (s : Text) : ∀ t ∈ (scan (readRun s).2).head?, t.isText = false := by
  rcases readRun_cases s with h | ⟨rest, h⟩ | ⟨c, t, rest, h, ht⟩
  · simp [h, scan]
  · simp [h, scan_escape_backslash, isText]
  · simp [h, scan_of_ofChar? ht, isText_of_ofChar? ht]

/-! ### One token -/

/-- **Reading a token** gives the first one of the text, with the others still to be read behind it. -/
theorem scan_eq_of_next? (s : Text) :
    scan s = match next? s with
      | some (t, rest) => t :: scan rest
      | none => [] := by
  have hscan := scan_eq_foldr_readRun s
  have hcases := readRun_cases s
  have hhead := not_text_of_readRun s
  unfold next?
  generalize readRun s = p at hscan hcases hhead ⊢
  obtain ⟨run, rest⟩ := p
  -- a run that is not empty is the first token; else it is what would have ended the run
  cases run with
  | cons c run => exact hscan.trans (foldr_attach (List.cons_ne_nil c run) hhead)
  | nil =>
    rcases hcases with rfl | ⟨rest', rfl⟩ | ⟨d, t, rest', rfl, ht⟩
    · exact hscan
    · exact hscan
    · have hd : d ≠ '\\' := by
        rintro rfl
        cases ht
      simp [hscan, hd, ht, scan_of_ofChar? ht]

/-! ### Answers to requests -/

theorem answer_fst (s : Text) (q : Request) : (answer s q).1 = (scan s).head? := by
  have hscan := scan_eq_of_next? s
  rw [answer]
  cases h : next? s with
  | none => simp [hscan, h]
  | some p => simp [hscan, h]

theorem scan_answer (s : Text) (q : Request) :
    scan (answer s q).2 = if q.consumes then (scan s).tail else scan s := by
  have hscan := scan_eq_of_next? s
  rw [answer]
  cases h : next? s with
  | none => simp [hscan, h]
  | some p => cases q <;> simp [hscan, h, Request.consumes]

/-- **The answer to a request** is the token whose place is the number of tokens taken before, by
induction on the requests: only a taken token moves the others up. -/
theorem getElem?_answers (s : Text) (qs : List Request) (i : Nat) :
    (answers s qs)[i]? =
      qs[i]?.map fun _ => (scan s)[(qs.take i).countP Request.consumes]? := by
  induction qs generalizing s i with
  | nil => rfl
  | cons q qs ih =>
    rw [answers]
    cases i with
    | zero => simp [answer_fst, List.head?_eq_getElem?]
    | succ i =>
      rw [List.getElem?_cons_succ, ih, List.getElem?_cons_succ, List.take_succ_cons,
        List.countP_cons, scan_answer]
      split <;> simp [List.getElem?_tail]

/-- **Those who take get the tokens in order**, then none, whatever others look at. -/
theorem taken_answers (s : Text) (qs : List Request) :
    Request.taken qs (answers s qs) =
      (List.range (qs.countP Request.consumes)).map fun n => (scan s)[n]? := by
  induction qs generalizing s with
  | nil => rfl
  | cons q qs ih =>
    rw [answers, Request.taken_cons, answer_fst, ih, scan_answer, List.countP_cons]
    split
    · rw [List.range_succ_eq_map, List.map_cons, List.map_map, List.head?_eq_getElem?]
      congr 1
      exact List.map_congr_left fun n _ => List.getElem?_tail
    · rfl

/-- **Taking one token after the other** gives the tokens of the text, then none for ever. -/
theorem serves_scan (s : Text) : Serves s (scan s) := by
  intro n
  have htaken := taken_answers s (List.replicate n .take)
  have hall := Request.taken_replicate (answers s (List.replicate n .take))
  rw [length_answers, List.length_replicate] at hall
  rwa [hall, List.countP_replicate] at htaken

end TextGrammar.Token
