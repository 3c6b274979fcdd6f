import TextGrammar.Proofs.Token.Stream
import TextGrammar.Token.Reader

/-!
# TextGrammar.Proofs.Token.Reader — looking ahead is not seen

What a reader has still to give is what it holds ready and the tokens of the text that it has not looked
at (`Reader.tokens`).  Looking on does not change it, looking at the next token neither, and taking one
takes the first.  So a reader answers like the stream of tokens that looks at nothing ahead
(`Reader.answers_ofText`), and its answers are the tokens of the text (`Reader.answers_refine_scan`).  An
iterator takes the same tokens (`Reader.answer_next`).
-/

namespace TextGrammar

namespace Token

/-! ### Looks -/

/-- **One look finds the first tokens of a text**, none, one or two of them, with the others behind. -/
theorem scan_eq_look (s : Text) :
    scan s = (ofRun? (readRun s).1).toList ++ (readStop (readRun s).2).1.toList ++
      scan (readStop (readRun s).2).2 := by
  have hscan := scan_eq_foldr_readRun s
  have hcases := readRun_cases s
  have hhead := not_text_of_readRun s
  generalize readRun s = p at hscan hcases hhead ⊢
  obtain ⟨run, behind⟩ := p
  -- what ends the run is a token of its own, or the end of the text
  have hstop : scan behind = (readStop behind).1.toList ++ scan (readStop behind).2 := by
    rcases hcases with rfl | ⟨rest, rfl⟩ | ⟨c, t, rest, rfl, ht⟩
    · rfl
    · rfl
    · have hc : c ≠ '\\' := by
        rintro rfl
        cases ht
      simp [readStop, hc, ht, scan_of_ofChar? ht]
  cases run with
  | nil =>
    rw [hscan, List.foldr_nil, hstop]
    rfl
  | cons c run =>
    rw [hscan, foldr_attach (List.cons_ne_nil c run) hhead, hstop]
    rfl

end Token

namespace Reader

open Token

/-! ### What a reader has still to give -/

/-- The tokens that are still to be taken. -/
def tokens (r : Reader) : List Token := r.ready ++ scan r.rest

@[simp] theorem tokens_ofText (s : Text) : (ofText s).tokens = scan s := rfl

@[simp] theorem tokens_look (r : Reader) : r.look.tokens = r.tokens := by
  rw [tokens, tokens, scan_eq_look r.rest, look]
  simp only [List.append_assoc]

/-- **Looking at the next token** makes it ready, unless there is none, and nothing is lost. -/
theorem peek_spec (r : Reader) : r.peek.1 = r.tokens.head? ∧ r.peek.2.tokens = r.tokens ∧
    r.peek.2.ready.head? = r.tokens.head? := by
  fun_induction peek r with
  | case1 r t ts hready => simp [tokens, hready]
  | case2 r hready hrest => simp [tokens, hready, hrest, scan]
  | case3 r hready hrest ih => simpa using ih

theorem peek_fst (r : Reader) : r.peek.1 = r.tokens.head? := r.peek_spec.1

theorem tokens_peek (r : Reader) : r.peek.2.tokens = r.tokens := r.peek_spec.2.1

theorem tokens_take (r : Reader) : r.take.2.tokens = r.tokens.tail := by
  obtain ⟨-, htokens, hready⟩ := r.peek_spec
  show r.peek.2.ready.tail ++ scan r.peek.2.rest = _
  rw [tokens] at htokens
  cases h : r.peek.2.ready with
  | nil =>
    rw [h] at hready htokens
    have hnone : r.tokens = [] := List.head?_eq_none_iff.1 hready.symm
    rw [hnone] at htokens ⊢
    exact htokens
  | cons t ts =>
    rw [h] at htokens
    rw [← htokens]
    rfl

theorem answer_fst (r : Reader) (q : Request) : (r.answer q).1 = q.reply r.tokens.head? := by
  have hreply : ∀ next : Option Token, q.reply next =
      if q = .next then (Reply.due next).toIterator else Reply.due next := by
    intro next
    cases next <;> cases q <;> rfl
  rw [hreply, ← r.peek_fst]
  cases q <;> rfl

theorem tokens_answer (r : Reader) (q : Request) :
    (r.answer q).2.tokens = if q.consumes then r.tokens.tail else r.tokens := by
  cases q with
  | peek => exact r.tokens_peek
  | take => exact r.tokens_take
  | next => exact r.tokens_take

/-- **An iterator takes what taking gives**, up to the end, which is none of its items. -/
theorem answer_next (r : Reader) :
    r.answer .next = ((r.answer .take).1.toIterator, (r.answer .take).2) := rfl

/-! ### Lists of requests -/

/-- By induction on the requests: the reader and the stream have the same tokens still to give. -/
theorem answers_eq {r : Reader} {s : Text} (h : r.tokens = scan s) (qs : List Request) :
    r.answers qs = List.zipWith Request.reply qs (Token.answers s qs) := by
  induction qs generalizing r s with
  | nil => rfl
  | cons q qs ih =>
    have hrest : (r.answer q).2.tokens = scan (Token.answer s q).2 := by
      rw [tokens_answer, scan_answer, h]
    rw [answers, Token.answers, List.zipWith_cons_cons, ih hrest, answer_fst, Token.answer_fst, h]

/-- **That a reader looks ahead is not seen.** -/
theorem answers_ofText (s : Text) (qs : List Request) :
    (ofText s).answers qs = List.zipWith Request.reply qs (Token.answers s qs) :=
  answers_eq (tokens_ofText s) qs

/-- Those who take are replied to with the tokens in order. -/
theorem taken_answers_ofText (s : Text) (qs : List Request) :
    Request.taken qs ((ofText s).answers qs) =
      (qs.filter Request.consumes).mapIdx fun n q => q.reply (scan s)[n]? := by
  rw [answers_ofText, Request.taken_zipWith, taken_answers, List.countP_eq_length_filter]
  refine List.ext_getElem? fun n => ?_
  rw [List.getElem?_zipWith, List.getElem?_mapIdx, List.getElem?_map]
  by_cases hn : n < (qs.filter Request.consumes).length
  · simp [hn]
  · simp [hn]

theorem getElem?_answers_ofText (s : Text) (qs : List Request) (i : Nat) :
    ((ofText s).answers qs)[i]? =
      qs[i]?.map fun q => q.reply (scan s)[(qs.take i).countP Request.consumes]? := by
  rw [answers_ofText, List.getElem?_zipWith, getElem?_answers]
  cases qs[i]? <;> rfl

/-- **A reader gives the tokens of its text in order**, then the end for ever, to those who take them, and
to an iterator nothing more; each request is answered by the token whose place is the number of tokens
taken before.  So who looks at a token is shown what taking it instead would give, whatever is asked later,
and how often and where one looks makes no difference to those who take. -/
theorem answers_refine_scan (s : Text) (qs : List Request) :
    Request.taken qs ((ofText s).answers qs) =
        (qs.filter Request.consumes).mapIdx (fun n q => q.reply (scan s)[n]?) ∧
      (∀ i : Nat, ((ofText s).answers qs)[i]? =
        qs[i]?.map fun q => q.reply (scan s)[(qs.take i).countP Request.consumes]?) ∧
      (∀ (before later later' : List Request) (q : Request), ∃ next : Option Token,
        ((ofText s).answers (before ++ .peek :: later))[before.length]? =
            some (Request.peek.reply next) ∧
          ((ofText s).answers (before ++ q :: later'))[before.length]? = some (q.reply next)) ∧
      ∀ qs' : List Request, qs'.filter Request.consumes = qs.filter Request.consumes →
        Request.taken qs' ((ofText s).answers qs') =
          Request.taken qs ((ofText s).answers qs) := by
  refine ⟨taken_answers_ofText s qs, getElem?_answers_ofText s qs, ?_, fun qs' h => ?_⟩
  · intro before later later' q
    refine ⟨(scan s)[before.countP Request.consumes]?, ?_, ?_⟩
    · simp [getElem?_answers_ofText]
    · simp [getElem?_answers_ofText]
  · rw [taken_answers_ofText, taken_answers_ofText, h]

/-- A run and the doubled backslash that ends it are found in one look, and the look behind the last run
finds no token; one looks in front of all of them, and past the end, where taking a token and going on
through all of them are answered differently. -/
theorem answers_refine_scan_ahead :
    let s : Text := "a\\\\b\\\\\\".toList
    let qs : List Request := [.peek, .take, .peek, .peek, .next, .take, .peek, .next, .peek, .next, .take]
    let takes : List Request := [.take, .next, .take, .next, .next, .take]
    takes.filter Request.consumes = qs.filter Request.consumes ∧
      Request.taken qs ((ofText s).answers qs) =
        [.token (text ['a']), .token backslash, .token (text ['b']), .token backslash, .nothing,
          .finish] ∧
      Request.taken takes ((ofText s).answers takes) =
        [.token (text ['a']), .token backslash, .token (text ['b']), .token backslash, .nothing,
          .finish] ∧
      ((ofText s).answers qs)[6]? = some (.token backslash) ∧
      ((ofText s).answers qs)[8]? = some .finish := by
  intro s qs takes
  have hfilter : takes.filter Request.consumes = qs.filter Request.consumes := by decide
  obtain ⟨htaken, hanswers, -, hsame⟩ := answers_refine_scan s qs
  have hgiven : Request.taken qs ((ofText s).answers qs) =
      [.token (text ['a']), .token backslash, .token (text ['b']), .token backslash, .nothing,
        .finish] :=
    htaken.trans (by decide)
  exact ⟨hfilter, hgiven, (hsame takes hfilter).trans hgiven, (hanswers 6).trans (by decide),
    (hanswers 8).trans (by decide)⟩

end Reader

end TextGrammar
