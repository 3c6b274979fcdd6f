import TextGrammar.Proofs.Outline.Escaped
import TextGrammar.Tree.Document

/-!
# TextGrammar.Proofs.Outline.Printed — the outline of a printed tree

A printed item of a document is outlined as one piece, whatever follows it (`Open.run_item`), and
printed items in a row are outlined as their pieces (`outline_flatMap_print`).  The values of an
action and the parameters of a call stand in their piece as they are printed on their own: the level
of escapes that printing adds around them is the one that scanning takes away.

Nothing printed begins with a letter (`Tree.head?_print`), so no printed value is taken for the word
`POP`.
-/

namespace TextGrammar

namespace Tree

/-! ### How printed trees begin -/

theorem head?_escaped {c : Char} (hc : c ≠ '\\') (t : Text) :
    (Text.escaped t).head? ≠ some c := by
  cases t with
  | nil => simp
  | cons d t => simpa using Ne.symm hc

theorem head?_listed {c : Char} (hc : c ≠ ',') {texts : List Text}
    (h : ∀ t ∈ texts, t.head? ≠ some c) : (Text.listed texts).head? ≠ some c := by
  cases texts with
  | nil => simp
  | cons t rest =>
    have ht : t.head? ≠ some c := h t (by simp)
    cases rest with
    | nil => simpa using ht
    | cons u rest =>
      cases t with
      | nil => simpa using Ne.symm hc
      | cons d t => simpa using ht

/-- **No printed tree begins with a letter**: its first character is a mark or a backslash. -/
theorem head?_print (t : Tree) : t.print.head? ≠ some 'P' := by
  induction t with
  | literal text => exact head?_escaped (by decide) text
  | symbol key calls => simp [print]
  | concat items ih =>
    -- the first character of a row is that of some item, even if items in front of it are empty
    intro h
    rw [print, printAll_eq_map, List.head?_flatten] at h
    obtain ⟨s, hs, hP⟩ := List.exists_of_findSome?_eq_some h
    obtain ⟨t, ht, rfl⟩ := List.mem_map.1 hs
    exact ih t ht hP
  | push key value => simp [print]
  | pop key => simp [print]
  | select alternatives =>
    rw [print]
    refine head?_listed (by decide) fun s hs => ?_
    obtain ⟨r, -, rfl⟩ := List.mem_map.1 hs
    exact head?_escaped (by decide) r

/-! ### The pieces of trees -/

/-- The trees among which a value is chosen; any but a choice is the only one. -/
def alternatives : Tree → List Tree
  | select ts => ts
  | t => [t]

end Tree

/-- The call with its parameters printed. -/
def Call.toRaw (c : Call) : RawCall := ⟨c.name, c.params.map Tree.print⟩

/-- The piece of an item, with what stands below it printed. -/
def Tree.piece : Tree → Piece
  | symbol key calls => .tag key (calls.map Call.toRaw)
  | push key value => .push key (value.alternatives.map print)
  | pop key => .pop key
  | literal text => .literal text
  | concat _ | select _ => .literal []

theorem Tree.print_push (key : Text) (value : Tree) (s : Text) :
    (push key value).print ++ s = '[' :: (Text.escaped key ++ ':' ::
      (Text.listed ((value.alternatives.map print).map Text.escaped) ++ ']' :: s)) := by
  cases value <;> simp [print, isSelect, alternatives]

theorem Call.print_bare (name s : Text) :
    (Call.mk name []).print ++ s = '.' :: (Text.escaped name ++ s) := by
  simp [Call.print]

theorem Call.print_applied (name : Text) {params : List Tree} (h : params ≠ []) (s : Text) :
    (Call.mk name params).print ++ s = '.' :: (Text.escaped name ++ '(' ::
      (Text.listed ((params.map Tree.print).map Text.escaped) ++ ')' :: s)) := by
  simp [Call.print, h]

/-- Behind the key of a tag, and behind each of its calls but the last, stands a mark other than the
opening parenthesis. -/
theorem exists_mark_printCalls (calls : List Call) (s : Text) :
    ∃ m s', m ≠ Mark.leftParen ∧ printCalls calls ++ '#' :: s = m.char :: s' := by
  cases calls with
  | nil => exact ⟨.octo, s, by decide, rfl⟩
  | cons c calls =>
    obtain ⟨name, params⟩ := c
    exact ⟨.period, _, by decide, by rw [printCalls, Call.print]; rfl⟩

theorem Tree.Value.alternatives_ne_nil {t : Tree} (h : t.Value) : t.alternatives ≠ [] := by
  cases h with
  | document h => cases h <;> exact List.cons_ne_nil _ _
  | select several =>
    refine List.ne_nil_of_length_pos ?_
    rw [Tree.alternatives]
    omega

namespace Open

open Token

/-! ### Actions -/

theorem run_push {key : Text} (bare : Bare key) {value : Tree} (h : value.Value) (s : Text) :
    (outside []).run (scan ((Tree.push key value).print ++ s)) =
      (Tree.push key value).piece :: (outside []).run (scan s) := by
  have hraws : (value.alternatives.map Tree.print).map Text.escaped ≠ [] := by
    simpa using h.alternatives_ne_nil
  have hpush : bodyPiece key (value.alternatives.map Tree.print) =
      .push key (value.alternatives.map Tree.print) := by
    -- no printed value begins with `P`, for plain text is printed with a backslash in front
    refine if_neg fun hpop => ?_
    obtain ⟨t, -, ht⟩ := List.map_eq_singleton_iff.1 hpop
    exact Tree.head?_print t (by rw [ht]; rfl)
  have hkey := names_action.run_escaped bare .colon
    (Text.listed ((value.alternatives.map Tree.print).map Text.escaped) ++ ']' :: s)
  have hbody := run_body key hraws (Text.segments_escaped .rightBracket _) s
  rw [Text.map_unescaped_escaped, hpush] at hbody
  rw [Tree.print_push]
  show action.run (scan _) = _
  exact hkey.trans hbody

theorem run_pop {key : Text} (bare : Bare key) (s : Text) :
    (outside []).run (scan ((Tree.pop key).print ++ s)) =
      (Tree.pop key).piece :: (outside []).run (scan s) := by
  have hprint : (Tree.pop key).print ++ s =
      '[' :: (Text.escaped key ++ ':' :: (popWord ++ ']' :: s)) := by
    simp [Tree.print]
  rw [hprint]
  exact names_action.run_escaped bare .colon (popWord ++ ']' :: s)

/-! ### Tags -/

theorem run_call (key : Text) (read : List RawCall) {c : Call} (h : c.Document) {m : Mark}
    (hm : m ≠ .leftParen) (s : Text) :
    (tagCalls key read).run (scan (c.print ++ m.char :: s)) =
      (tagCalls key (c.toRaw :: read)).run (.mark m :: scan s) := by
  cases h with
  | @mk name params bare documents =>
    have hname := (names_callPeriod key read).run_escaped bare
    -- without parameters there are no parentheses, and the mark behind the name ends the call
    by_cases hp : params = []
    · subst hp
      rw [Call.print_bare]
      refine (hname m s).trans ?_
      cases m with
      | leftParen => exact absurd rfl hm
      | _ => rfl
    · have hraws : (params.map Tree.print).map Text.escaped ≠ [] := by simpa using hp
      have hparams := (lists_callParams key read name).run_segments hraws
        (Text.segments_escaped .rightParen _) [] (m.char :: s)
      rw [Text.map_unescaped_escaped] at hparams
      rw [Call.print_applied name hp]
      refine (hname .leftParen _).trans (hparams.trans ?_)
      rw [scan_mark]
      rfl

theorem run_calls (key : Text) (read : List RawCall) {calls : List Call}
    (h : ∀ c ∈ calls, c.Document) (s : Text) :
    (tagCalls key read).run (scan (printCalls calls ++ '#' :: s)) =
      .tag key (read.reverse ++ calls.map Call.toRaw) :: (outside []).run (scan s) := by
  induction calls generalizing read with
  | nil =>
    rw [List.map_nil, List.append_nil]
    rfl
  | cons c calls ih =>
    obtain ⟨hc, hcalls⟩ := List.forall_mem_cons.1 h
    obtain ⟨m, s', hm, hs⟩ := exists_mark_printCalls calls s
    have hrest := ih (c.toRaw :: read) hcalls
    rw [hs, scan_mark] at hrest
    rw [printCalls, List.append_assoc, hs, run_call key read hc hm, hrest, List.reverse_cons,
      List.append_assoc, List.map_cons]
    rfl

theorem run_symbol {key : Text} (bare : Bare key) {calls : List Call}
    (h : ∀ c ∈ calls, c.Document) (s : Text) :
    (outside []).run (scan ((Tree.symbol key calls).print ++ s)) =
      (Tree.symbol key calls).piece :: (outside []).run (scan s) := by
  obtain ⟨m, s', -, hs⟩ := exists_mark_printCalls calls s
  have hkey := names_tag.run_escaped bare m s'
  have hcalls := run_calls key [] h s
  rw [hs, scan_mark] at hcalls
  have hprint : (Tree.symbol key calls).print ++ s =
      '#' :: (Text.escaped key ++ (printCalls calls ++ '#' :: s)) := by
    simp [Tree.print]
  rw [hprint, hs]
  exact hkey.trans hcalls

/-! ### Items in a row -/

/-- **A printed item is outlined as its piece**, whatever follows; plain text ends only with what
follows it and is left to `run_items`. -/
theorem run_item {t : Tree} (h : t.Document) (hi : t.IsItem) (hl : t.isLiteral = false)
    (s : Text) :
    (outside []).run (scan (t.print ++ s)) = t.piece :: (outside []).run (scan s) := by
  cases h with
  | literal => simp [Tree.isLiteral] at hl
  | symbol bare calls_ok => exact run_symbol bare calls_ok s
  | push bare value_ok => exact run_push bare value_ok s
  | pop bare => exact run_pop bare s
  | concat => exact hi.elim

theorem head?_print_item {t : Tree} (h : t.Document) (hi : t.IsItem) (hl : t.isLiteral = false)
    (s : Text) : ∀ c ∈ (t.print ++ s).head?, c = '#' ∨ c = '[' := by
  cases h with
  | literal => simp [Tree.isLiteral] at hl
  | symbol => simp [Tree.print]
  | push => simp [Tree.print]
  | pop => simp [Tree.print]
  | concat => exact hi.elim

theorem run_literal {text : Text} (hne : text ≠ []) {s : Text}
    (h : ∀ c ∈ s.head?, c = '#' ∨ c = '[') :
    (outside []).run (scan (Text.escaped text ++ s)) =
      .literal text :: (outside []).run (scan s) := by
  have hgather : (outside []).gather text = outside text.reverse := by simp [gather]
  have hflush : flush text.reverse = [.literal text] := by
    rw [flush]
    · rw [List.reverse_reverse]
    · simpa using hne
  rw [run_escaped rfl, hgather, run_flush h, hflush]
  rfl

/-- By induction on the items: no literal follows a literal, so each of them ends where it should. -/
theorem run_items {items : List Tree} (hd : ∀ t ∈ items, t.Document) (hi : ∀ t ∈ items, t.IsItem)
    (ha : Tree.LiteralsApart items) :
    (outside []).run (scan (items.flatMap Tree.print)) = items.map Tree.piece := by
  induction items with
  | nil => rfl
  | cons t rest ih =>
    obtain ⟨hdt, hdr⟩ := List.forall_mem_cons.1 hd
    obtain ⟨hit, hir⟩ := List.forall_mem_cons.1 hi
    have har : Tree.LiteralsApart rest := by
      cases rest with
      | nil => trivial
      | cons u rest => cases t <;> cases u <;> first | exact ha.elim | exact ha
    have hrest := ih hdr hir har
    rw [List.flatMap_cons, List.map_cons, ← hrest]
    by_cases hl : t.isLiteral = false
    · exact run_item hdt hit hl _
    · cases t with
      | literal text =>
        refine run_literal hit ?_
        cases rest with
        | nil => simp
        | cons u rest =>
          -- plain text is followed by no plain text, so its run ends where its item does
          have hu : u.isLiteral = false := by
            cases u <;> first | exact ha.elim | rfl
          exact head?_print_item (hdr u (by simp)) (hir u (by simp)) hu _
      | _ => simp [Tree.isLiteral] at hl

end Open

/-- **Printed items are outlined as their pieces.** -/
theorem outline_flatMap_print {items : List Tree} (hd : ∀ t ∈ items, t.Document)
    (hi : ∀ t ∈ items, t.IsItem) (ha : Tree.LiteralsApart items) :
    outline (items.flatMap Tree.print) = items.map Tree.piece :=
  Open.run_items hd hi ha

end TextGrammar
