import TextGrammar.Proofs.Outline.Escaped
import TextGrammar.Proofs.Tree.Closing
import TextGrammar.Proofs.Tree.PlainText

/-!
# TextGrammar.Proofs.Tree.Stray — what is dropped in a tag

Behind its key and behind each call a tag may hold text that is neither.  Nothing of it is read, whatever
marks stand in it: behind a key or a call every token but `#` and the period is dropped
(`Open.run_stray`), so the tag is read as without it (`Tree.parse_stray`).  Such text must not go on with
the name in front of it, and behind a call without parameters it must not begin some.
-/

namespace TextGrammar

/-! ### Parts of a tag -/

/-- A call as it is written in a tag. -/
structure WrittenCall where
  name : Text
  /-- What stands between its parentheses, if it has any. -/
  params? : Option Text
deriving DecidableEq, Repr

namespace WrittenCall

def text (c : WrittenCall) : Text :=
  '.' :: (c.name ++ match c.params? with
    | none => []
    | some params => '(' :: (params ++ [')']))

/-- The call that is meant, whose parameters are parted by commas. -/
def toRaw (c : WrittenCall) : RawCall where
  name := c.name
  params := match c.params? with
    | none => []
    | some params => params.splitOn ','

/-- The name is plain and not empty, and the parameters have no `)` and no backslash in them. -/
structure WellWritten (c : WrittenCall) : Prop where
  name_ne_nil : c.name ≠ []
  plain : c.name.Plain
  params : ∀ params ∈ c.params?, ')' ∉ params ∧ '\\' ∉ params

instance (c : WrittenCall) : Decidable c.WellWritten :=
  decidable_of_iff
    (c.name ≠ [] ∧ c.name.Plain ∧ ∀ params ∈ c.params?, ')' ∉ params ∧ '\\' ∉ params)
    ⟨fun ⟨name_ne_nil, plain, params⟩ => ⟨name_ne_nil, plain, params⟩,
      fun ⟨name_ne_nil, plain, params⟩ => ⟨name_ne_nil, plain, params⟩⟩

end WrittenCall

namespace Text

/-- The text ends no tag, begins no call and escapes nothing. -/
def Stray (s : Text) : Prop := '#' ∉ s ∧ '.' ∉ s ∧ '\\' ∉ s

instance (s : Text) : Decidable s.Stray := inferInstanceAs (Decidable ('#' ∉ s ∧ '.' ∉ s ∧ '\\' ∉ s))

/-- The text is empty, or begins with white space or one of these marks. -/
def BeginsWith (marks : List Mark) (s : Text) : Prop :=
  ∀ c ∈ s.head?, isBlank c = true ∨ ∃ m ∈ marks, c = m.char

instance (marks : List Mark) : (s : Text) → Decidable (s.BeginsWith marks)
  | [] => isTrue (by simp [BeginsWith])
  | c :: _ => decidable_of_iff (isBlank c = true ∨ ∃ m ∈ marks, c = m.char) (by simp [BeginsWith])

/-- Calls one behind the other, each with a text behind it. -/
def strewn (calls : List (WrittenCall × Text)) : Text := calls.flatMap fun c => c.1.text ++ c.2

/-- The same calls with nothing behind them. -/
def cleared (calls : List (WrittenCall × Text)) : List (WrittenCall × Text) :=
  calls.map fun c => (c.1, [])

/-- A tag with a text behind its key and behind each of its calls. -/
def strewnTag (key stray : Text) (calls : List (WrittenCall × Text)) : Text :=
  '#' :: (key ++ (stray ++ (strewn calls ++ ['#'])))

theorem listed_splitOn (p : Text) : listed (p.splitOn ',') = p := List.intercalate_splitOn ','

theorem sublist_of_mem_splitOn {p v : Text} (h : v ∈ p.splitOn ',') : List.Sublist v p := by
  have hflat := (List.sublist_flatten_of_mem h).trans (flatten_sublist_listed _)
  rwa [listed_splitOn] at hflat

theorem comma_not_mem_of_mem_splitOn {p v : Text} (h : v ∈ p.splitOn ',') : ',' ∉ v := by
  induction p generalizing v with
  | nil => simp_all
  | cons c p ih =>
    rw [List.splitOn_cons_eq_if_modifyHead] at h
    by_cases hc : c = ','
    · rcases List.mem_cons.1 (by simpa [hc] using h) with rfl | hv
      · simp
      · exact ih hv
    · -- the character goes in front of the first part, and the others stay
      obtain ⟨u, us, hsplit⟩ := List.exists_cons_of_ne_nil (List.splitOn_ne_nil ',' p)
      rw [hsplit] at h ih
      rcases List.mem_cons.1 (by simpa [hc] using h) with rfl | hv
      · simp [ih List.mem_cons_self, Ne.symm hc]
      · exact ih (List.mem_cons_of_mem u hv)

/-- What stands between the commas of a text without `)` and backslashes is read as it is written. -/
theorem segment_of_mem_splitOn {p v : Text} (hclose : ')' ∉ p) (hbare : '\\' ∉ p)
    (h : v ∈ p.splitOn ',') : v.Segment .rightParen ∧ unescaped v = v := by
  have hmem := (sublist_of_mem_splitOn h).subset
  have hv : '\\' ∉ v := fun hin => hbare (hmem hin)
  refine ⟨⟨?_, ?_, dangles_eq_false hv⟩, unescaped_eq_self hv⟩
  · simpa [characters_eq_map hv] using comma_not_mem_of_mem_splitOn h
  · have hparen : ')' ∉ v := fun hin => hclose (hmem hin)
    simpa [characters_eq_map hv, Mark.char] using hparen

end Text

namespace Open

open Token

/-! ### Dropped tokens -/

/-- By induction on the tokens: the tag stays as it is at each of them. -/
theorem run_dropped {ts : List Token} (h : ∀ t ∈ ts, t ≠ .mark .octo ∧ t ≠ .mark .period) (key : Text)
    (calls : List RawCall) (us : List Token) :
    (tagCalls key calls).run (ts ++ us) = (tagCalls key calls).run us := by
  induction ts with
  | nil => rfl
  | cons t ts ih =>
    obtain ⟨ht, hts⟩ := List.forall_mem_cons.1 h
    have hstep : (tagCalls key calls).step t = (tagCalls key calls, []) := by
      show stepCalls key calls t = _
      unfold stepCalls
      split
      · exact absurd rfl ht.1
      · exact absurd rfl ht.2
      · rfl
    rw [List.cons_append, Open.run, hstep]
    exact ih hts

/-- **Stray text behind a key or a call is dropped**, up to what begins no run. -/
theorem run_stray {j : Text} (hj : j.Stray) {rest : Text}
    (hrest : ∀ t ∈ (scan rest).head?, t.isText = false) (key : Text) (calls : List RawCall) :
    (tagCalls key calls).run (scan (j ++ rest)) = (tagCalls key calls).run (scan rest) := by
  obtain ⟨hocto, hperiod, hbare⟩ := hj
  have hmark : ∀ m : Mark, m.char ∉ j → .mark m ∉ scan j := by
    intro m hm
    rw [mark_mem_scan, Text.characters_eq_map hbare]
    simpa using hm
  rw [scan_append (Text.dangles_eq_false hbare), join_of_head_not_text _ hrest]
  refine run_dropped (fun t ht => ⟨?_, ?_⟩) key calls _
  · rintro rfl
    exact hmark .octo hocto ht
  · rintro rfl
    exact hmark .period hperiod ht

/-! ### Names -/

/-- A text that begins with white space or a mark begins with a token of its own, and so does a mark. -/
theorem exists_scan_eq_cons {marks : List Mark} {j : Text} (hj : j.BeginsWith marks) (m : Mark)
    (s : Text) : ∃ t ts, scan (j ++ m.char :: s) = t :: ts ∧
      ((∃ c, t = .blank c) ∨ ∃ m' ∈ m :: marks, t = .mark m') := by
  cases j with
  | nil => exact ⟨_, _, scan_mark m s, .inr ⟨m, List.mem_cons_self, rfl⟩⟩
  | cons c j =>
    rcases hj c rfl with hblank | ⟨m', hm', rfl⟩
    · exact ⟨_, _, scan_of_ofChar? (ofChar?_blank hblank) _, .inl ⟨c, rfl⟩⟩
    · exact ⟨_, _, scan_mark m' _, .inr ⟨m', List.mem_cons_of_mem m hm', rfl⟩⟩

theorem not_text_of_beginsWith {marks : List Mark} {j : Text} (hj : j.BeginsWith marks) (m : Mark)
    (s : Text) : ∀ t ∈ (scan (j ++ m.char :: s)).head?, t.isText = false := by
  obtain ⟨t, ts, hscan, ⟨c, rfl⟩ | ⟨m', -, rfl⟩⟩ := exists_scan_eq_cons hj m s
  · simp [hscan, isText]
  · simp [hscan, isText]

/-- A plain name is all of the run that it begins, if no run stands behind it. -/
theorem Names.run_before {o : Open} {named : Text → Open} (h : Names o named) {name : Text}
    (hne : name ≠ []) (plain : name.Plain) {rest : Text}
    (hrest : ∀ t ∈ (scan rest).head?, t.isText = false) :
    o.run (scan (name ++ rest)) = (named name).run (scan rest) := by
  rw [scan_isRun_append (isRun_of_plain plain), Text.unescaped_eq_self plain.bare,
    foldr_attach hne hrest, Open.run, h.text]
  rfl

/-! ### Calls -/

/-- What may stand behind a name that no parameters follow. -/
def breaks : List Mark := [.leftBracket, .rightBracket, .rightParen, .colon, .comma]

/-- A call without parameters ends where no parenthesis opens. -/
theorem run_callName {key : Text} {read : List RawCall} {name : Text} {j : Text}
    (hj : j.BeginsWith breaks) {m : Mark} (hm : m ≠ .leftParen) (s : Text) :
    (callName key read name).run (scan (j ++ m.char :: s)) =
      (tagCalls key (⟨name, []⟩ :: read)).run (scan (j ++ m.char :: s)) := by
  obtain ⟨t, ts, hscan, ht⟩ := exists_scan_eq_cons hj m s
  have hparen : t ≠ .mark .leftParen := by
    -- the first token is a blank, one of `breaks`, or the mark `m` itself; none of them is `(`
    rcases ht with ⟨c, rfl⟩ | ⟨m', hm', rfl⟩
    · simp
    · rcases List.mem_cons.1 hm' with rfl | hbreak
      · simpa using hm
      · rintro h
        injection h with h
        subst h
        exact absurd hbreak (by decide)
  have hstep : stepName key read name t = stepCalls key (⟨name, []⟩ :: read) t := by
    unfold stepName
    split
    · exact absurd rfl hparen
    · rfl
  rw [hscan, Open.run, Open.run, step, step, hstep]

/-- **A call is read up to the next one, or to the end of the tag**, and the text behind it is dropped. -/
theorem run_writtenCall (key : Text) (read : List RawCall) {c : WrittenCall} (hc : c.WellWritten)
    {j : Text} (hj : j.Stray) (hbreak : c.params? = none → j.BeginsWith breaks) {m : Mark}
    (hm : m ≠ .leftParen) (s : Text) :
    (tagCalls key read).run (scan (c.text ++ (j ++ m.char :: s))) =
      (tagCalls key (c.toRaw :: read)).run (scan (m.char :: s)) := by
  obtain ⟨name, params?⟩ := c
  have hmark : ∀ t ∈ (scan (m.char :: s)).head?, t.isText = false := by simp [scan_mark, isText]
  have hstray := run_stray hj hmark key
  have hname := names_callPeriod key read
  cases params? with
  -- without parentheses the name would take up plain text that follows it, hence `hbreak`
  | none =>
    have hhead := not_text_of_beginsWith (hbreak rfl) m s
    have hcall := hname.run_before hc.name_ne_nil hc.plain hhead
    have htext : WrittenCall.text ⟨name, none⟩ ++ (j ++ m.char :: s) =
        '.' :: (name ++ (j ++ m.char :: s)) := by simp [WrittenCall.text]
    rw [htext]
    exact hcall.trans ((run_callName (hbreak rfl) hm s).trans (hstray _))
  | some params =>
    obtain ⟨hclose, hbare⟩ := hc.params params rfl
    have hsegment := fun v hv => Text.segment_of_mem_splitOn (v := v) hclose hbare hv
    have hunescaped : (params.splitOn ',').map Text.unescaped = params.splitOn ',' := by
      rw [List.map_congr_left fun v hv => (hsegment v hv).2, List.map_id']
    have hparams := (lists_callParams key read name).run_segments (List.splitOn_ne_nil ',' params)
      (fun v hv => (hsegment v hv).1) [] (j ++ m.char :: s)
    rw [Text.listed_splitOn, hunescaped] at hparams
    have hcall := hname.run_plain hc.plain .leftParen (params ++ ')' :: (j ++ m.char :: s))
    have htext : WrittenCall.text ⟨name, some params⟩ ++ (j ++ m.char :: s) =
        '.' :: (name ++ '(' :: (params ++ ')' :: (j ++ m.char :: s))) := by simp [WrittenCall.text]
    rw [htext]
    exact hcall.trans (hparams.trans (hstray _))

/-- Behind a key or a call stands a mark, and no parenthesis that opens. -/
theorem exists_mark_strewn (calls : List (WrittenCall × Text)) :
    ∃ m s, m ≠ Mark.leftParen ∧ Text.strewn calls ++ ['#'] = m.char :: s := by
  cases calls with
  | nil => exact ⟨.octo, [], by decide, rfl⟩
  | cons c calls => exact ⟨.period, _, by decide, rfl⟩

/-- By induction on the calls. -/
theorem run_strewn (key : Text) (read : List RawCall) {calls : List (WrittenCall × Text)}
    (h : ∀ c ∈ calls, c.1.WellWritten ∧ c.2.Stray ∧ (c.1.params? = none → c.2.BeginsWith breaks)) :
    (tagCalls key read).run (scan (Text.strewn calls ++ ['#'])) =
      [.tag key (read.reverse ++ calls.map fun c => c.1.toRaw)] := by
  induction calls generalizing read with
  | nil =>
    rw [List.map_nil, List.append_nil]
    rfl
  | cons c calls ih =>
    obtain ⟨⟨hc, hj, hbreak⟩, hcalls⟩ := List.forall_mem_cons.1 h
    obtain ⟨m, s, hm, hs⟩ := exists_mark_strewn calls
    have hrest := ih (c.1.toRaw :: read) hcalls
    have htext : Text.strewn (c :: calls) ++ ['#'] = c.1.text ++ (c.2 ++ m.char :: s) := by
      rw [← hs]
      simp [Text.strewn]
    rw [hs] at hrest
    rw [htext, run_writtenCall key read hc hj hbreak hm, hrest]
    simp

end Open

/-! ### Tags -/

section

variable {key stray : Text} {calls : List (WrittenCall × Text)}

/-- **The outline of a tag** is its key and its calls, whatever stray text is in it. -/
theorem outline_strewnTag (hne : key ≠ []) (plain : key.Plain) (hstray : stray.Stray)
    (hbegins : stray.BeginsWith (.leftParen :: Open.breaks))
    (hcalls : ∀ c ∈ calls,
      c.1.WellWritten ∧ c.2.Stray ∧ (c.1.params? = none → c.2.BeginsWith Open.breaks)) :
    outline (Text.strewnTag key stray calls) = [.tag key (calls.map fun c => c.1.toRaw)] := by
  obtain ⟨m, s, -, hs⟩ := Open.exists_mark_strewn calls
  have hmark : ∀ t ∈ (Token.scan (m.char :: s)).head?, t.isText = false := by
    simp [Token.scan_mark, Token.isText]
  have hkey := Open.names_tag.run_before hne plain (Open.not_text_of_beginsWith hbegins m s)
  have hrest := Open.run_strewn key [] hcalls
  rw [hs] at hrest
  rw [Text.strewnTag, hs]
  show Open.tag.run (Token.scan _) = _
  exact hkey.trans ((Open.run_stray hstray hmark key []).trans hrest)

namespace Tree

/-- **Stray text in a tag changes nothing.**  A tag may hold text that ends no tag, begins no call and
escapes nothing, behind its key and behind each of its calls.  Behind the key, and behind a call without
parameters, it is set off by white space or a mark; a parenthesis may open behind the key, where it begins
no parameters, but not behind such a call.  The tag is then read as without any of it: the key with
exactly these calls in order, their parameters the trees of what commas part. -/
theorem parse_stray (hne : key ≠ []) (plain : key.Plain) (hstray : stray.Stray)
    (hbegins : stray.BeginsWith
      [.leftParen, .leftBracket, .rightBracket, .rightParen, .colon, .comma])
    (hcalls : ∀ c ∈ calls, c.1.WellWritten ∧ c.2.Stray ∧ (c.1.params? = none →
      c.2.BeginsWith [.leftBracket, .rightBracket, .rightParen, .colon, .comma])) :
    parse (Text.strewnTag key stray calls) =
        parse (Text.strewnTag key [] (Text.cleared calls)) ∧
      parse (Text.strewnTag key [] (Text.cleared calls)) =
        symbol key (calls.map fun c => .mk c.1.name (c.1.toRaw.params.map parse)) := by
  have hempty : Text.Stray [] := by decide
  have hnone : ∀ marks, Text.BeginsWith marks [] := by simp [Text.BeginsWith]
  -- a tag without stray text is the case in which every stray text is empty
  have hcleared : ∀ c ∈ Text.cleared calls,
      c.1.WellWritten ∧ c.2.Stray ∧ (c.1.params? = none → c.2.BeginsWith Open.breaks) := by
    intro c hc
    obtain ⟨d, hd, rfl⟩ := List.mem_map.1 hc
    exact ⟨(hcalls d hd).1, hempty, fun _ => hnone _⟩
  have hwith := outline_strewnTag hne plain hstray hbegins hcalls
  have hwithout : outline (Text.strewnTag key [] (Text.cleared calls)) =
      [.tag key (calls.map fun c => c.1.toRaw)] := by
    rw [outline_strewnTag hne plain hempty (hnone _) hcleared, Text.cleared, List.map_map]
    rfl
  constructor
  · rw [parse_eq, hwith, ← hwithout, ← parse_eq]
  · rw [parse_eq, hwithout, List.map_singleton, Piece.toTree, List.map_map]
    rfl

/-- Words, marks and parentheses between the parts of a tag, and a name behind a closing parenthesis. -/
theorem parse_stray_words :
    let key : Text := ['k']
    let stray : Text := "(a, b) [c:".toList
    let calls : List (WrittenCall × Text) :=
      [(⟨['m'], none⟩, " d(e)".toList), (⟨['n'], some "p,#q.r#".toList⟩, "s)] (t".toList),
        (⟨['o'], some []⟩, [])]
    key.Plain ∧ stray.Stray ∧ (∀ c ∈ calls, c.1.WellWritten ∧ c.2.Stray) ∧
      Text.strewnTag key stray calls = "#k(a, b) [c:.m d(e).n(p,#q.r#)s)] (t.o()#".toList ∧
      parse (Text.strewnTag key stray calls) = symbol key
        [.mk ['m'] [], .mk ['n'] [.literal ['p'], symbol ['q'] [.mk ['r'] []]],
          .mk ['o'] [.literal []]] := by
  intro key stray calls
  obtain ⟨hsame, hclean⟩ :=
    @parse_stray key stray calls (by decide) (by decide) (by decide) (by decide) (by decide)
  exact ⟨by decide, by decide, by decide, by decide, hsame.trans hclean⟩

end Tree

end

end TextGrammar
