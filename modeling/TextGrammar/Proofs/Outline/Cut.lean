import TextGrammar.Proofs.Outline.Escaped
import TextGrammar.Proofs.Outline.Kept
import TextGrammar.Proofs.Outline.Step

/-!
# TextGrammar.Proofs.Outline.Cut — the outline of a text in two parts

A text is closed if it does not end in the middle of an escape and leaves no construct open.  Then the
pieces that its tokens complete stay the same whatever stands behind it, and the rest is outlined as
on its own, but for plain text that goes on across the seam (`outline_append`).  Plain text in front of
tokens only joins the first piece (`Open.run_outside`).
-/

namespace TextGrammar

namespace Token

/-- Where no construct is open, the token begins one. -/
def opens : Token → Bool
  | mark .octo | mark .leftBracket => true
  | _ => false

theorem opens_eq_true {t : Token} : t.opens = true ↔ t = mark .octo ∨ t = mark .leftBracket := by
  unfold opens
  split <;> simp_all

end Token

namespace Open

open Token

/-- The pieces that tokens complete, those at the end of the text left out. -/
def completed (o : Open) : List Token → List Piece
  | [] => []
  | t :: ts => (o.step t).2 ++ completed (o.step t).1 ts

theorem after_cons (o : Open) (t : Token) (ts : List Token) :
    o.after (t :: ts) = (o.step t).1.after ts := rfl

theorem run_append (o : Open) (ts us : List Token) :
    o.run (ts ++ us) = o.completed ts ++ (o.after ts).run us := by
  induction ts generalizing o with
  | nil => rfl
  | cons t ts ih => rw [List.cons_append, run, ih, completed, after_cons, List.append_assoc]

/-- A run of text leads outside only from there. -/
theorem isOutside_of_step_text {o : Open} {r : Text} (h : (o.step (.text r)).1.isOutside = true) :
    o.isOutside = true := by
  cases o with
  | outside => rfl
  | actionKey | actionColon =>
    simp only [step, stepKey, stepColon] at h
    split at h <;> simp [stepBody, isOutside] at h
  | _ => simp [step, stepAction, stepPop, stepBody, stepTag, stepCalls, stepPeriod, stepName,
      stepParams, isOutside] at h

/-- **Tokens behind tokens that leave no construct open** are read from there on: it does not matter
that a run goes on across the seam. -/
theorem run_join {o : Open} {ts : List Token} (h : (o.after ts).isOutside = true)
    (us : List Token) : o.run (join ts us) = o.completed ts ++ (o.after ts).run us := by
  rcases join_cases ts us with hjoin | ⟨ts', r, r', us', rfl, rfl, hjoin⟩
  · rw [hjoin, run_append]
  · -- The run at the seam stands outside, where text is only gathered.
    have hafter : o.after (ts' ++ [.text r]) = ((o.after ts').step (.text r)).1 := by
      rw [after, List.foldl_append]
      rfl
    rw [hafter] at h
    have hout : (o.after ts').isOutside = true := isOutside_of_step_text h
    rw [hjoin, ← run_append, List.append_assoc, run_append, run_append]
    cases hrun : o.after ts' with
    | outside run =>
      have hextend : extend (.text (r ++ r')) run = extend (.text r') (extend (.text r) run) := by
        simp [extend, Token.value]
      show _ ++ (outside (extend (.text (r ++ r')) run)).run us' =
        _ ++ (outside (extend (.text r') (extend (.text r) run))).run us'
      rw [hextend]
    | _ =>
      rw [hrun] at hout
      cases hout

end Open

/-- The text does not end in the middle of an escape and leaves no construct open. -/
def Text.Closed (s : Text) : Prop :=
  s.dangles = false ∧ ((Open.outside []).after (Token.scan s)).isOutside = true

instance (s : Text) : Decidable s.Closed :=
  inferInstanceAs (Decidable (s.dangles = false ∧ _ = true))

/-- **The outline of a text in two parts**, the first of which is closed: some pieces are complete, and
plain text at the end of the first part goes on in the second. -/
theorem outline_append {a : Text} (h : a.Closed) : ∃ (done : List Piece) (run : Text),
    outline a = done ++ Open.flush run ∧
      ∀ b, outline (a ++ b) = done ++ (Open.outside run).run (Token.scan b) := by
  obtain ⟨hd, hout⟩ := h
  cases hafter : (Open.outside []).after (Token.scan a) with
  | outside run =>
    refine ⟨(Open.outside []).completed (Token.scan a), run, ?_, fun b => ?_⟩
    · have hrun := Open.run_append (.outside []) (Token.scan a) []
      rw [List.append_nil, hafter] at hrun
      exact hrun
    · rw [outline, Token.scan_append hd, Open.run_join hout, hafter]
  | _ =>
    rw [hafter] at hout
    cases hout

/-! ### Plain text in front -/

/-- Pieces with plain text in front, which joins plain text that stands first. -/
def Piece.prepend (s : Text) : List Piece → List Piece
  | literal t :: ps => literal (s ++ t) :: ps
  | ps => if s = [] then ps else literal s :: ps

namespace Piece

/-- Text stands first among the pieces, or it does not. -/
theorem head_cases (ps : List Piece) :
    (∃ t rest, ps = literal t :: rest) ∨ ∀ p ∈ ps.head?, p.isLiteral = false := by
  cases ps with
  | nil => exact .inr (by simp)
  | cons p ps =>
    cases p with
    | literal t => exact .inl ⟨t, ps, rfl⟩
    | push | pop | tag => exact .inr (by simp [isLiteral])

theorem prepend_of_not_literal (s : Text) {ps : List Piece}
    (h : ∀ p ∈ ps.head?, p.isLiteral = false) :
    prepend s ps = if s = [] then ps else literal s :: ps := by
  cases ps with
  | nil => rfl
  | cons p ps =>
    cases p with
    | literal t => cases h (literal t) rfl
    | push | pop | tag => rfl

theorem prepend_prepend (s t : Text) (ps : List Piece) :
    prepend s (prepend t ps) = prepend (s ++ t) ps := by
  rcases head_cases ps with ⟨u, rest, rfl⟩ | hps
  · simp [prepend]
  · rw [prepend_of_not_literal t hps, prepend_of_not_literal (s ++ t) hps]
    by_cases ht : t = []
    · rw [if_pos ht, prepend_of_not_literal s hps, ht, List.append_nil]
    · have hst : s ++ t ≠ [] := by simp [ht]
      rw [if_neg ht, if_neg hst, prepend]

end Piece

namespace Open

open Token

theorem flush_eq_prepend (run : Text) : flush run = Piece.prepend run.reverse [] := by
  cases run with
  | nil => rfl
  | cons c run => simp [flush, Piece.prepend]

theorem stepOutside_of_opens {t : Token} (h : t.opens = true) :
    ∃ o : Open, o.Named ∧ o.isOutside = false ∧ ∀ run, stepOutside run t = (o, flush run) := by
  rcases opens_eq_true.1 h with rfl | rfl
  · exact ⟨tag, trivial, rfl, fun _ => rfl⟩
  · exact ⟨action, trivial, rfl, fun _ => rfl⟩

theorem stepOutside_of_not_opens {t : Token} (h : t.opens = false) (run : Text) :
    stepOutside run t = (outside (extend t run), []) := by
  unfold stepOutside
  split
  · cases h
  · cases h
  · rfl

/-- **Text that has been read joins what follows**, by induction on the tokens: it grows until a
construct begins. -/
theorem run_outside {ts : List Token} (hts : ∀ t ∈ ts, t.WellFormed) (run : Text) :
    (outside run).run ts = Piece.prepend run.reverse ((outside []).run ts) := by
  -- on the tokens: plain text joins the run, and the first token that opens a construct ends it
  induction ts generalizing run with
  | nil => exact flush_eq_prepend run
  | cons t ts ih =>
    obtain ⟨ht, hts⟩ := List.forall_mem_cons.1 hts
    cases hopens : t.opens with
    | true =>
      obtain ⟨o, ho, hin, hstep⟩ := stepOutside_of_opens hopens
      have hrun : ∀ run, (outside run).run (t :: ts) = flush run ++ o.run ts := by
        intro run
        rw [Open.run, step, hstep]
      -- what comes first behind the run is a construct, so the run joins nothing
      have hhead := not_literal_of_mem_head?_run hts ho hin
      have hflush : flush run ++ o.run ts = Piece.prepend run.reverse (o.run ts) := by
        rw [Piece.prepend_of_not_literal _ hhead]
        cases run with
        | nil => rfl
        | cons c run => simp [flush]
      rw [hrun run, hrun [], hflush]
      rfl
    | false =>
      have hrun : ∀ run, (outside run).run (t :: ts) = (outside (extend t run)).run ts := by
        intro run
        rw [Open.run, step, stepOutside_of_not_opens hopens]
        rfl
      rw [hrun run, hrun [], ih hts (extend t run), ih hts (extend t []), reverse_extend,
        reverse_extend, Piece.prepend_prepend]
      rfl

/-- Plain text is gathered where text is, whatever stands behind it. -/
theorem run_plain {s : Text} (hs : s.Plain) {o : Open} (h : o.gathers = true) (b : Text) :
    o.run (scan (s ++ b)) = (o.gather s).run (scan b) := by
  have hunescaped : Text.unescaped s = s := Text.unescaped_eq_self hs.bare
  rw [run_gathered h (Text.dangles_eq_false hs.bare), hunescaped]
  intro c t hc ht
  have hmem : c ∈ s := by
    rw [← hunescaped, Text.unescaped_eq_map_characters]
    exact List.mem_map_of_mem hc
  rw [(hs c hmem).2] at ht
  cases ht

end Open

/-- **Plain text in front of a text** joins its first piece. -/
theorem outline_plain_append {s : Text} (hs : s.Plain) (b : Text) :
    outline (s ++ b) = Piece.prepend s (outline b) := by
  rw [outline, Open.run_plain hs rfl, outline]
  have hrun := Open.run_outside (Token.wellFormed_scan b) s.reverse
  rw [List.reverse_reverse] at hrun
  rw [← hrun]
  simp [Open.gather]

end TextGrammar
