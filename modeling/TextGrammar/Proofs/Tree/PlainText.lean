import TextGrammar.Proofs.Run.Full
import TextGrammar.Proofs.Token.Exact
import TextGrammar.Proofs.Tree.Normal

/-!
# TextGrammar.Proofs.Tree.PlainText — texts that are read as plain text

Outside of constructs only `#` and `[` begin one, and an escape keeps them from it.  Where every one of
them is escaped, the tokens of a text are gathered to its end, whatever they are, and the tree of the text
is a literal.  Where one is not, there is a piece in the outline that is no text.  So the texts that are
read as plain text are known exactly (`Tree.parse_eq_literal`).
-/

namespace TextGrammar

/-- Every `#` and every `[` in the text is escaped. -/
def Text.OpensNothing (s : Text) : Prop := (false, '#') ∉ s.characters ∧ (false, '[') ∉ s.characters

instance (s : Text) : Decidable s.OpensNothing :=
  inferInstanceAs (Decidable ((false, '#') ∉ s.characters ∧ (false, '[') ∉ s.characters))

/-! ### Texts without backslashes -/

namespace Text

theorem unescaped_eq_self_iff {s : Text} : unescaped s = s ↔ '\\' ∉ s := by
  refine ⟨fun h => ?_, unescaped_eq_self⟩
  fun_induction unescaped s with
  | case1 => simp
  | case2 => cases h
  | case3 c rest ih =>
    -- one character less, and at most as many behind it
    have hlength := congrArg List.length h
    have hle := (unescaped_sublist rest).length_le
    simp only [List.length_cons] at hlength
    omega
  | case4 c rest h₁ h₂ ih =>
    have hrest := ih (List.cons.inj h).2
    simpa [Ne.symm (ne_backslash h₁ h₂)] using hrest

theorem characters_eq_map {s : Text} (h : '\\' ∉ s) : characters s = s.map fun c => (false, c) := by
  induction s with
  | nil => rfl
  | cons c rest ih =>
    obtain ⟨hc, hrest⟩ := not_or.1 (mt List.mem_cons.2 h)
    rw [characters_cons (Ne.symm hc), ih hrest, List.map_cons]

theorem opensNothing_iff {s : Text} (h : '\\' ∉ s) : s.OpensNothing ↔ '#' ∉ s ∧ '[' ∉ s := by
  simp [OpensNothing, characters_eq_map h]

end Text

/-! ### Tokens -/

namespace Token

theorem mark_mem_cut {m : Mark} {t : Token} : mark m ∈ t.cut ↔ t = mark m := by
  cases t <;> simp [cut, eq_comm]

theorem ofChar?_eq_mark {c : Char} {m : Mark} : ofChar? c = some (mark m) ↔ c = m.char := by
  rw [← Mark.ofChar?_eq_some_iff, ofChar?]
  cases Mark.ofChar? c with
  | none => by_cases hblank : isBlank c = true <;> simp [hblank]
  | some n => simp

theorem ofCharacter_eq_mark {e : Bool × Char} {m : Mark} :
    ofCharacter e = mark m ↔ e = (false, m.char) := by
  obtain ⟨escaped, c⟩ := e
  cases escaped with
  | true => by_cases hc : c = '\\' <;> simp [ofCharacter, separator?, hc]
  | false => simp [ofCharacter, separator?, Option.getD_eq_iff, ofChar?_eq_mark]

/-- **The marks among the tokens** of a text are its unescaped ones. -/
theorem mark_mem_scan {m : Mark} {s : Text} : mark m ∈ scan s ↔ (false, m.char) ∈ s.characters := by
  have hcut : mark m ∈ scan s ↔ mark m ∈ (scan s).flatMap cut := by
    simp [List.mem_flatMap, mark_mem_cut]
  rw [hcut, flatMap_cut_scan, List.mem_map]
  simp [ofCharacter_eq_mark]

/-- No token begins a construct exactly if every `#` and every `[` is escaped. -/
theorem forall_opens_scan {s : Text} : (∀ t ∈ scan s, t.opens = false) ↔ s.OpensNothing := by
  have hopens : ∀ t : Token, t.opens = false ↔ t ≠ mark .octo ∧ t ≠ mark .leftBracket := by
    intro t
    rw [← Bool.not_eq_true, opens_eq_true, not_or]
  have hocto : mark .octo ∈ scan s ↔ (false, '#') ∈ s.characters := mark_mem_scan
  have hbracket : mark .leftBracket ∈ scan s ↔ (false, '[') ∈ s.characters := mark_mem_scan
  rw [Text.OpensNothing, ← hocto, ← hbracket]
  simp only [hopens]
  constructor
  · intro h
    exact ⟨fun hmem => (h _ hmem).1 rfl, fun hmem => (h _ hmem).2 rfl⟩
  · rintro ⟨h, h'⟩ t ht
    exact ⟨fun heq => h (heq ▸ ht), fun heq => h' (heq ▸ ht)⟩

end Token

/-! ### Outlines -/

namespace Open

open Token

/-- **Where no token begins a construct**, all of them are gathered to the end. -/
theorem run_of_not_opens {ts : List Token} (h : ∀ t ∈ ts, t.opens = false) (run : Text) :
    (outside run).run ts = flush ((ts.flatMap value).reverse ++ run) := by
  induction ts generalizing run with
  | nil => rfl
  | cons t ts ih =>
    obtain ⟨ht, hts⟩ := List.forall_mem_cons.1 h
    rw [Open.run, step, stepOutside_of_not_opens ht, List.nil_append, ih hts, extend,
      List.flatMap_cons, List.reverse_append, List.append_assoc]

/-- **Where a token begins a construct**, some piece is no text: the text in front is gathered up to the
first such token. -/
theorem exists_not_literal_run {ts : List Token} (hts : ∀ t ∈ ts, t.WellFormed)
    (h : ∃ t ∈ ts, t.opens = true) (run : Text) :
    ∃ p ∈ (outside run).run ts, p.isLiteral = false := by
  induction ts generalizing run with
  | nil => simp at h
  | cons t ts ih =>
    obtain ⟨-, hrest⟩ := List.forall_mem_cons.1 hts
    rw [Open.run, step]
    cases ht : t.opens with
    -- the construct that begins here is completed later, at the end of the text if not before
    | true =>
      obtain ⟨o, ho, hin, hstep⟩ := stepOutside_of_opens ht
      obtain ⟨p, ps, hrun, hp⟩ := exists_run_eq_cons hrest ho hin
      exact ⟨p, by simp [hstep, hrun], hp⟩
    | false =>
      have hlater : ∃ u ∈ ts, u.opens = true := by simpa [ht] using h
      rw [stepOutside_of_not_opens ht, List.nil_append]
      exact ih hrest hlater _

end Open

theorem outline_of_opensNothing {s : Text} (h : s.OpensNothing) :
    outline s = Open.flush (Text.unescaped s).reverse := by
  rw [outline, Open.run_of_not_opens (Token.forall_opens_scan.2 h), Token.flatMap_value_scan,
    List.append_nil]

theorem exists_not_literal_outline {s : Text} (h : ¬ s.OpensNothing) :
    ∃ p ∈ outline s, p.isLiteral = false := by
  refine Open.exists_not_literal_run (Token.wellFormed_scan s) ?_ []
  simpa using mt Token.forall_opens_scan.1 h

/-! ### Trees -/

namespace Tree

theorem ofItems_flush (f : Text → Tree) (run : Text) :
    ofItems ((Open.flush run).map (Piece.toTree f)) = literal run.reverse := by
  cases run <;> rfl

/-- Only literals make a literal. -/
theorem isLiteral_of_ofItems {items : List Tree} (h : (ofItems items).isLiteral = true) :
    ∀ t ∈ items, t.isLiteral = true := by
  cases items with
  | nil => simp
  | cons t rest =>
    cases rest with
    | nil => simpa [ofItems] using h
    | cons u rest => cases h

theorem parse_of_opensNothing {s : Text} (h : s.OpensNothing) :
    parse s = literal (Text.unescaped s) := by
  rw [parse_eq, outline_of_opensNothing h, ofItems_flush, List.reverse_reverse]

theorem isLiteral_parse {s : Text} (h : (parse s).isLiteral = true) : s.OpensNothing := by
  refine Decidable.byContradiction fun hnot => ?_
  obtain ⟨p, hp, hpiece⟩ := exists_not_literal_outline hnot
  rw [parse_eq] at h
  have htree := isLiteral_of_ofItems h _ (List.mem_map_of_mem hp)
  rw [Piece.isLiteral_toTree, hpiece] at htree
  cases htree

theorem parse_eq_literal {s text : Text} :
    parse s = literal text ↔ s.OpensNothing ∧ text = Text.unescaped s := by
  constructor
  · intro h
    have hopens : s.OpensNothing := isLiteral_parse (by rw [h]; rfl)
    rw [parse_of_opensNothing hopens] at h
    exact ⟨hopens, (literal.inj h).symm⟩
  · rintro ⟨hopens, rfl⟩
    exact parse_of_opensNothing hopens

/-- **Plain text is recognised exactly.**  The tree of a text is a literal exactly if every `#` and every
`[` in the text is escaped, and then it is the text without its escapes.  So it is the text itself exactly
if none of `#`, `[` and the backslash is in it; evaluating such a text gives the text, with no event and no
change of the state. -/
theorem parse_plain_text (s : Text) :
    (∀ text, parse s = literal text ↔ s.OpensNothing ∧ text = Text.unescaped s) ∧
    (parse s = literal s ↔ '#' ∉ s ∧ '[' ∉ s ∧ '\\' ∉ s) ∧
    ('#' ∉ s ∧ '[' ∉ s ∧ '\\' ∉ s →
      ∀ nesting g, (Run.flatten nesting s).full g = some ⟨s, ∅, g⟩) := by
  have hself : parse s = literal s ↔ '#' ∉ s ∧ '[' ∉ s ∧ '\\' ∉ s := by
    rw [parse_eq_literal, eq_comm, Text.unescaped_eq_self_iff]
    constructor
    · rintro ⟨hopens, hbare⟩
      obtain ⟨hocto, hbracket⟩ := (Text.opensNothing_iff hbare).1 hopens
      exact ⟨hocto, hbracket, hbare⟩
    · rintro ⟨hocto, hbracket, hbare⟩
      exact ⟨(Text.opensNothing_iff hbare).2 ⟨hocto, hbracket⟩, hbare⟩
  refine ⟨fun text => parse_eq_literal, hself, fun hs nesting g => ?_⟩
  rw [Run.flatten, hself.2 hs, full_resolve, write_eq, writeWith]
  rfl

/-- Marks that close nothing, and white space; an odd number of backslashes in front of a mark, a plain
character escaped, and a backslash at the end; an even number of them in front of a mark. -/
theorem parse_plain_text_marks :
    let stray : Text := "a], (b): c.d\t\n".toList
    let escaped : Text := "\\\\\\#a\\[\\b\\".toList
    let doubled : Text := "\\\\#".toList
    parse stray = literal stray ∧
      (∀ nesting g, (Run.flatten nesting stray).full g = some ⟨stray, ∅, g⟩) ∧
      parse escaped = literal "\\#a[b".toList ∧ ∀ text, parse doubled ≠ literal text := by
  intro stray escaped doubled
  obtain ⟨-, hstray, hflatten⟩ := parse_plain_text stray
  obtain ⟨hescaped, -, -⟩ := parse_plain_text escaped
  obtain ⟨hdoubled, -, -⟩ := parse_plain_text doubled
  refine ⟨hstray.2 (by decide), hflatten (by decide), (hescaped _).2 (by decide), fun text h => ?_⟩
  exact absurd ((hdoubled text).1 h).1 (by decide)

end Tree

end TextGrammar
