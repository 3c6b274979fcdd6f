import TextGrammar.Outline.Build
import TextGrammar.Proofs.Token.Scan

/-!
# TextGrammar.Proofs.Outline.Escaped — text with escapes under the outline

What a text does to an open construct is said here without regard to its characters.  Where text is
gathered, it is put behind what stands there with one level of escapes taken away (`Open.run_gathered`).
Where a name is read, all of a run is the name (`Open.Names.run`).  Where texts are listed that keep their
separators escaped, each of them is one value (`Open.Lists.run_segments`); the body of an action lists
values too, unless it is the word `POP` (`Open.run_body`).
-/

namespace TextGrammar

open Token

namespace Open

/-! ### Gathering text -/

/-- The text of any token but a mark is put behind what has been read. -/
def gathers : Open → Bool
  | outside _ | actionBody .. | callParams .. => true
  | _ => false

/-- Put a text behind what has been read. -/
def gather (t : Text) : Open → Open
  | outside run => outside (t.reverse ++ run)
  | actionBody key values raw => actionBody key values (t.reverse ++ raw)
  | callParams key calls name params raw => callParams key calls name params (t.reverse ++ raw)
  | o => o

@[simp] theorem gather_nil (o : Open) : o.gather [] = o := by
  cases o <;> rfl

@[simp] theorem gather_gather (o : Open) (s t : Text) :
    (o.gather s).gather t = o.gather (s ++ t) := by
  cases o <;> simp [gather]

@[simp] theorem gathers_gather (o : Open) (t : Text) : (o.gather t).gathers = o.gathers := by
  cases o <;> rfl

theorem step_text {o : Open} (h : o.gathers = true) (t : Text) :
    o.step (.text t) = (o.gather t, []) := by
  cases o with
  | outside | actionBody | callParams => rfl
  | _ => simp [gathers] at h

theorem run_backslash {o : Open} (h : o.gathers = true) (ts : List Token) :
    o.run (.backslash :: ts) = (o.gather ['\\']).run ts := by
  cases o with
  | outside | actionBody | callParams => rfl
  | _ => simp [gathers] at h

/-- A character is gathered alone or as the first one of the run that it joins. -/
theorem run_attach {o : Open} (h : o.gathers = true) (c : Char) (ts : List Token) :
    o.run (attach c ts) = (o.gather [c]).run ts := by
  have hone : o.run (.text [c] :: ts) = (o.gather [c]).run ts := by
    rw [run, step_text h]
    rfl
  cases ts with
  | nil => exact hone
  | cons t ts =>
    cases t with
    | text u =>
      have hu : (o.gather [c]).step (.text u) = ((o.gather [c]).gather u, []) :=
        step_text (by rw [gathers_gather, h]) u
      rw [attach, run, run, step_text h, hu, gather_gather]
      rfl
    | blank | backslash | mark => exact hone

/-- **Text is gathered without its escapes**, whatever stands behind it, if the characters in it that are
tokens of their own are gathered too.  By induction on its characters. -/
theorem run_gathered {o : Open} (h : o.gathers = true) {s : Text} (hd : s.dangles = false)
    (htokens : ∀ c t, (false, c) ∈ s.characters → ofChar? c = some t →
      ∀ u, (o.gather u).step t = ((o.gather u).gather t.value, [])) (b : Text) :
    o.run (scan (s ++ b)) = (o.gather (Text.unescaped s)).run (scan b) := by
  -- on how the text is unescaped: by its end, a dangling backslash, an escape, or a bare character
  fun_induction Text.unescaped s generalizing o with
  | case1 => rw [List.nil_append, gather_nil]
  | case2 => cases hd
  | case3 c s ih =>
    have hc : (o.gather [c]).gathers = true := by rw [gathers_gather, h]
    have hrest := ih hc hd fun d t hmem ht u => by
      rw [gather_gather]
      exact htokens d t (List.mem_cons_of_mem _ hmem) ht _
    rw [gather_gather] at hrest
    rw [List.cons_append, List.cons_append]
    -- a doubled backslash is a token of its own, which no run joins
    by_cases hbs : c = '\\'
    · subst hbs
      rw [scan_escape_backslash, run_backslash h]
      exact hrest
    · rw [scan_escape hbs, run_attach h]
      exact hrest
  | case4 c s h₁ h₂ ih =>
    have hne : c ≠ '\\' := Text.ne_backslash h₁ h₂
    rw [Text.dangles_cons hne] at hd
    rw [Text.characters_cons hne] at htokens
    have hc : (o.gather [c]).gathers = true := by rw [gathers_gather, h]
    have hrest := ih hc hd fun d t hmem ht u => by
      rw [gather_gather]
      exact htokens d t (List.mem_cons_of_mem _ hmem) ht _
    rw [gather_gather] at hrest
    rw [List.cons_append]
    -- a bare mark or blank is a token of its own, and the assumption says that it is only gathered
    cases ht : ofChar? c with
    | some t =>
      have hstep := htokens c t List.mem_cons_self ht []
      rw [gather_nil, value_of_ofChar? ht] at hstep
      rw [scan_of_ofChar? ht, run, hstep]
      exact hrest
    | none =>
      rw [scan_of_plain hne ht, run_attach h]
      exact hrest

theorem run_escaped {o : Open} (h : o.gathers = true) (t s : Text) :
    o.run (scan (Text.escaped t ++ s)) = (o.gather t).run (scan s) := by
  rw [run_gathered h (Text.dangles_escaped t) (by simp), Text.unescaped_escaped]

/-! ### Names -/

/-- At `o` a run of text is a name, read to `named`; a mark instead of it stands behind the empty
name. -/
structure Names (o : Open) (named : Text → Open) : Prop where
  text : ∀ name, o.step (.text name) = (named name, [])
  mark : ∀ m, o.step (.mark m) = (named []).step (.mark m)

theorem names_action : Names action actionKey := ⟨fun _ => rfl, fun _ => rfl⟩

theorem names_tag : Names tag fun key => tagCalls key [] := ⟨fun _ => rfl, fun _ => rfl⟩

theorem names_callPeriod (key : Text) (calls : List RawCall) :
    Names (callPeriod key calls) (callName key calls) :=
  ⟨fun _ => rfl, fun _ => rfl⟩

/-- **A run is read as a name**, up to the mark behind it. -/
theorem Names.run {o : Open} {named : Text → Open} (h : Names o named) {name : Text}
    (hrun : name.IsRun) (m : Mark) (s : Text) :
    o.run (scan (name ++ m.char :: s)) = (named (Text.unescaped name)).run (.mark m :: scan s) := by
  by_cases hname : Text.unescaped name = []
  · rw [scan_isRun_append hrun, hname, List.foldr_nil, scan_mark, Open.run, Open.run, h.mark]
  · rw [scan_isRun_mark hrun hname, Open.run, h.text]
    rfl

theorem Names.run_plain {o : Open} {named : Text → Open} (h : Names o named) {name : Text}
    (plain : name.Plain) (m : Mark) (s : Text) :
    o.run (scan (name ++ m.char :: s)) = (named name).run (.mark m :: scan s) := by
  rw [h.run (isRun_of_plain plain), Text.unescaped_eq_self plain.bare]

theorem Names.run_escaped {o : Open} {named : Text → Open} (h : Names o named) {name : Text}
    (bare : '\\' ∉ name) (m : Mark) (s : Text) :
    o.run (scan (Text.escaped name ++ m.char :: s)) = (named name).run (.mark m :: scan s) := by
  rw [h.run (isRun_escaped bare), Text.unescaped_escaped]

/-! ### Lists of values -/

/-- Where `body` reads values, a comma ends one of them, and the mark `m` ends the last one and
leads to `closed`.  All else is gathered. -/
structure Lists (body : List Text → Text → Open) (m : Mark)
    (closed : List Text → Open × List Piece) : Prop where
  gathers : ∀ values raw, (body values raw).gathers = true
  gather : ∀ values raw t, (body values raw).gather t = body values (t.reverse ++ raw)
  comma : ∀ values raw,
    (body values raw).step (.mark .comma) = (body (raw.reverse :: values) [], [])
  close : ∀ values raw, (body values raw).step (.mark m) = closed (complete values raw)
  other : ∀ values raw t, t ≠ .mark .comma → t ≠ .mark m →
    (body values raw).step t = ((body values raw).gather t.value, [])

theorem lists_actionBody (key : Text) :
    Lists (actionBody key) .rightBracket fun values => (outside [], [.push key values]) where
  gathers _ _ := rfl
  gather _ _ _ := rfl
  comma _ _ := rfl
  close _ _ := rfl
  other values raw t hcomma hclose := by
    cases t with
    | mark m => cases m <;> first | rfl | exact absurd rfl hcomma | exact absurd rfl hclose
    | text | blank | backslash => rfl

theorem lists_callParams (key : Text) (calls : List RawCall) (name : Text) :
    Lists (callParams key calls name) .rightParen
      fun params => (tagCalls key (⟨name, params⟩ :: calls), []) where
  gathers _ _ := rfl
  gather _ _ _ := rfl
  comma _ _ := rfl
  close _ _ := rfl
  other params raw t hcomma hclose := by
    cases t with
    | mark m => cases m <;> first | rfl | exact absurd rfl hcomma | exact absurd rfl hclose
    | text | blank | backslash => rfl

end Open

/-- Every comma in the text is escaped, and so is every mark `m`; the text does not end in the middle
of an escape. -/
structure Text.Segment (m : Mark) (v : Text) : Prop where
  comma : (false, ',') ∉ v.characters
  close : (false, m.char) ∉ v.characters
  whole : v.dangles = false

instance (m : Mark) (v : Text) : Decidable (v.Segment m) :=
  decidable_of_iff
    ((false, ',') ∉ v.characters ∧ (false, m.char) ∉ v.characters ∧ v.dangles = false)
    ⟨fun ⟨comma, close, whole⟩ => ⟨comma, close, whole⟩,
      fun ⟨comma, close, whole⟩ => ⟨comma, close, whole⟩⟩

namespace Text

theorem segment_escaped (m : Mark) (t : Text) : Segment m (escaped t) where
  comma h := by simp at h
  close h := by simp at h
  whole := dangles_escaped t

theorem segments_escaped (m : Mark) (texts : List Text) : ∀ v ∈ texts.map escaped, v.Segment m := by
  intro v hv
  obtain ⟨t, -, rfl⟩ := List.mem_map.1 hv
  exact segment_escaped m t

theorem map_unescaped_escaped (texts : List Text) :
    (texts.map escaped).map unescaped = texts := by
  simp [Function.comp_def]

end Text

namespace Open

section

variable {body : List Text → Text → Open} {m : Mark} {closed : List Text → Open × List Piece}

/-- What stands between two separators is gathered without its escapes. -/
theorem Lists.run_segment (h : Lists body m closed) {v : Text} (hv : v.Segment m)
    (values : List Text) (raw s : Text) :
    (body values raw).run (scan (v ++ s)) =
      (body values ((Text.unescaped v).reverse ++ raw)).run (scan s) := by
  rw [run_gathered (h.gathers values raw) hv.whole, h.gather]
  intro c t hc ht u
  have hother : ∀ m' : Mark, (false, m'.char) ∉ v.characters → t ≠ .mark m' := by
    rintro m' hm' rfl
    obtain rfl : m'.char = c := List.singleton_inj.1 (value_of_ofChar? ht)
    exact hm' hc
  rw [h.gather]
  exact h.other _ _ t (hother .comma hv.comma) (hother m hv.close)

/-- **Each of several segments is one value**, by induction on the segments. -/
theorem Lists.run_segments (h : Lists body m closed) {segments : List Text} (hne : segments ≠ [])
    (hs : ∀ v ∈ segments, v.Segment m) (values : List Text) (s : Text) :
    (body values []).run (scan (Text.listed segments ++ m.char :: s)) =
      (closed (values.reverse ++ segments.map Text.unescaped)).2 ++
        (closed (values.reverse ++ segments.map Text.unescaped)).1.run (scan s) := by
  -- on the segments, with the values already read; `m` ends the last one, commas the others
  induction segments generalizing values with
  | nil => exact absurd rfl hne
  | cons v rest ih =>
    obtain ⟨hv, hrest⟩ := List.forall_mem_cons.1 hs
    cases rest with
    | nil =>
      have hall : complete values (Text.unescaped v).reverse =
          values.reverse ++ [Text.unescaped v] := by simp [complete]
      rw [Text.listed_singleton, h.run_segment hv, List.append_nil, scan_mark, Open.run, h.close,
        hall]
      rfl
    | cons v' rest =>
      have hlisted : Text.listed (v :: v' :: rest) ++ m.char :: s =
          v ++ Mark.comma.char :: (Text.listed (v' :: rest) ++ m.char :: s) := by
        simp [Mark.char]
      have hall : (Text.unescaped v :: values).reverse ++ (v' :: rest).map Text.unescaped =
          values.reverse ++ (v :: v' :: rest).map Text.unescaped := by simp
      rw [hlisted, h.run_segment hv, List.append_nil, scan_mark, Open.run, h.comma,
        ih (List.cons_ne_nil _ _) hrest, List.reverse_reverse, hall]
      rfl

end

/-! ### The body of an action -/

/-- The piece of an action whose body lists these values: they are pushed, unless the word `POP` is the
only one of them. -/
def bodyPiece (key : Text) (values : List Text) : Piece :=
  if values = [popWord] then .pop key else .push key values

/-- A body that is not the word `POP` is read as values from its start on. -/
theorem run_actionColon (key : Text) (ts : List Token) :
    (actionColon key).run ts = (actionBody key [] []).run ts ∨ ts = [.text popWord] ∨
      ∃ us, ts = .text popWord :: .mark .rightBracket :: us := by
  cases ts with
  | nil => exact .inl rfl
  | cons t us =>
    -- only the word `POP` is read apart, and only in front of the end of the action
    by_cases ht : t = .text popWord
    · subst ht
      cases us with
      | nil => exact .inr (.inl rfl)
      | cons u us =>
        cases u with
        | text | blank | backslash => exact .inl rfl
        | mark m =>
          cases m with
          | rightBracket => exact .inr (.inr ⟨us, rfl⟩)
          | _ => exact .inl rfl
    · have hstep : (actionColon key).step t = (actionBody key [] []).step t := if_neg ht
      rw [run, run, hstep]
      exact .inl rfl

/-- **The word `POP` pops only as the whole body**; otherwise each segment is a value. -/
theorem run_body (key : Text) {segments : List Text} (hne : segments ≠ [])
    (hs : ∀ v ∈ segments, v.Segment .rightBracket) (s : Text) :
    (actionColon key).run (scan (Text.listed segments ++ ']' :: s)) =
      bodyPiece key (segments.map Text.unescaped) :: (outside []).run (scan s) := by
  have hvalues : (actionBody key [] []).run (scan (Text.listed segments ++ ']' :: s)) =
      .push key (segments.map Text.unescaped) :: (outside []).run (scan s) :=
    (lists_actionBody key).run_segments hne hs [] s
  by_cases hpop : segments.map Text.unescaped = [popWord]
  -- a single value that unescapes to the word has no bare mark or blank, so it is one run
  · obtain ⟨v, rfl, hv⟩ : ∃ v, segments = [v] ∧ Text.unescaped v = popWord := by
      simpa [List.map_eq_singleton_iff] using hpop
    have hplain : (Text.unescaped v).Plain := by
      rw [hv]
      decide
    have hrun : v.IsRun := isRun_of_plain_unescaped (hs v (by simp)).whole hplain
    have hscan : scan (v ++ ']' :: s) = .text popWord :: .mark .rightBracket :: scan s := by
      have hmark := scan_isRun_mark hrun (by simp [hv, popWord]) .rightBracket s
      rwa [hv] at hmark
    rw [Text.listed_singleton, hscan, bodyPiece, if_pos hpop]
    rfl
  · rw [bodyPiece, if_neg hpop]
    -- read as values, the word alone would be the only one of them
    have hword : ∀ ps, (actionBody key [] []).run (scan (Text.listed segments ++ ']' :: s)) ≠
        .push key [popWord] :: ps := by
      intro ps h
      rw [hvalues] at h
      injection h with h
      injection h with _ h
      exact hpop h
    rcases run_actionColon key (scan (Text.listed segments ++ ']' :: s)) with h | h | ⟨us, h⟩
    · rw [h, hvalues]
    · exact absurd (by rw [h]; rfl) (hword [])
    · exact absurd (by rw [h]; rfl) (hword ((outside []).run us))

/-! ### The end of text -/

/-- Plain text ends where the rest of the text is empty or begins with a construct. -/
theorem run_flush {run : Text} {s : Text} (h : ∀ c ∈ s.head?, c = '#' ∨ c = '[') :
    (outside run).run (scan s) = flush run ++ (outside []).run (scan s) := by
  cases s with
  | nil => simp [scan, Open.run, finish, flush]
  | cons c s =>
    rcases h c rfl with rfl | rfl <;> rfl

end Open

end TextGrammar
