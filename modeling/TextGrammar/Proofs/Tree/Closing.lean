import TextGrammar.Proofs.Outline.Cut
import TextGrammar.Proofs.Outline.Kept

/-!
# TextGrammar.Proofs.Tree.Closing — constructs that a text leaves open

A text may end anywhere in a construct, and in the middle of an escape.  It is then read like the text
without the backslash that escapes nothing and with the marks behind it that close what is open
(`Tree.parse_closing`).  What the end of a text completes is what its closing marks complete
(`Open.run_closing`), in each state by a step of its own.
-/

namespace TextGrammar

namespace Text

/-- The text without a backslash at its end that escapes nothing. -/
def settled (s : Text) : Text := if s.dangles then s.dropLast else s

/-- The marks that close the construct in which the text ends. -/
def closing (s : Text) : Text := ((Open.outside []).after (Token.scan s)).closing

theorem exists_of_dangles {s : Text} (h : s.dangles = true) :
    ∃ s', s = s' ++ ['\\'] ∧ s'.dangles = false := by
  fun_induction dangles s with
  | case1 => cases h
  | case2 => exact ⟨[], rfl, rfl⟩
  | case3 c rest ih =>
    obtain ⟨s', rfl, hs'⟩ := ih h
    exact ⟨'\\' :: c :: s', rfl, hs'⟩
  | case4 c rest h₁ h₂ ih =>
    obtain ⟨s', rfl, hs'⟩ := ih h
    exact ⟨c :: s', rfl, by rw [dangles_cons (ne_backslash h₁ h₂), hs']⟩

theorem settled_cases (s : Text) :
    s.settled.dangles = false ∧ (s = s.settled ∨ s = s.settled ++ ['\\']) := by
  by_cases h : s.dangles = true
  · obtain ⟨s', rfl, hs'⟩ := exists_of_dangles h
    have hsettled : settled (s' ++ ['\\']) = s' := by
      rw [settled, if_pos h, List.dropLast_concat]
    rw [hsettled]
    exact ⟨hs', .inr rfl⟩
  · rw [settled, if_neg h]
    exact ⟨by simpa using h, .inl rfl⟩

end Text

namespace Token

theorem join_of_head_not_text (ts : List Token) {us : List Token}
    (h : ∀ t ∈ us.head?, t.isText = false) : join ts us = ts ++ us := by
  rcases join_cases ts us with hjoin | ⟨ts', r, r', us', -, rfl, -⟩
  · exact hjoin
  · cases h (text r') rfl

theorem scan_settled (s : Text) : scan s.settled = scan s := by
  obtain ⟨hdangles, hs | hs⟩ := s.settled_cases
  · rw [← hs]
  · have hscan := scan_append hdangles ['\\']
    rw [← hs] at hscan
    rw [hscan, join_of_head_not_text _ (by simp [scan]), scan, List.append_nil]

end Token

namespace Open

open Token

theorem after_append (o : Open) (ts us : List Token) :
    o.after (ts ++ us) = (o.after ts).after us := List.foldl_append

theorem dangles_closing (o : Open) : o.closing.dangles = false := by
  cases o <;> rfl

theorem not_text_of_mem_head?_closing (o : Open) :
    ∀ t ∈ (scan o.closing).head?, t.isText = false := by
  cases o <;> simp [closing, scan, ofChar?, Mark.ofChar?, isText]

/-- **The closing marks complete what the end of the text would**, and leave nothing open. -/
theorem run_closing (o : Open) :
    o.run (scan o.closing) = o.finish ∧ (o.after (scan o.closing)).isOutside = true := by
  cases o <;> exact ⟨rfl, rfl⟩

theorem closing_eq_nil (o : Open) : o.closing = [] ↔ o.isOutside = true := by
  cases o <;> simp [closing, isOutside]

end Open

theorem scan_append_closing {s : Text} (h : s.dangles = false) :
    Token.scan (s ++ s.closing) = Token.scan s ++ Token.scan s.closing := by
  rw [Token.scan_append h]
  exact Token.join_of_head_not_text _ (Open.not_text_of_mem_head?_closing _)

/-- The closing marks do not change the outline of a text, and close the text. -/
theorem outline_append_closing {s : Text} (h : s.dangles = false) :
    outline (s ++ s.closing) = outline s ∧ (s ++ s.closing).Closed := by
  obtain ⟨hrun, hout⟩ := Open.run_closing ((Open.outside []).after (Token.scan s))
  refine ⟨?_, ?_, ?_⟩
  · have hend := Open.run_append (.outside []) (Token.scan s) []
    rw [List.append_nil] at hend
    rw [outline, scan_append_closing h, Open.run_append, outline, hend]
    exact congrArg (_ ++ ·) hrun
  · rw [Text.dangles_append h]
    exact Open.dangles_closing _
  · rw [scan_append_closing h, Open.after_append]
    exact hout

namespace Tree

/-- **What a text leaves open ends with it**: the text is read like the one that drops a backslash
escaping nothing and closes what is open, in which nothing is left for the end to complete.  No mark is
added to a text that leaves nothing open. -/
theorem parse_closing (s : Text) :
    parse s = parse (s.settled ++ s.settled.closing) ∧ (s.settled ++ s.settled.closing).Closed ∧
      (s.settled.closing = [] ↔ s.settled.Closed) := by
  obtain ⟨hdangles, -⟩ := s.settled_cases
  obtain ⟨houtline, hclosed⟩ := outline_append_closing hdangles
  have hsettled : outline s.settled = outline s := by
    rw [outline, Token.scan_settled, outline]
  refine ⟨?_, hclosed, ?_⟩
  · rw [parse_eq, parse_eq (s.settled ++ s.settled.closing), houtline, hsettled]
  · exact (Open.closing_eq_nil _).trans ⟨fun h => ⟨hdangles, h⟩, fun h => h.2⟩

/-- A bracket in a parameter is text there, so it is not closed. -/
example : Text.settled "[a:b]#c.f(d,[e\\".toList = "[a:b]#c.f(d,[e".toList ∧
    Text.closing "[a:b]#c.f(d,[e".toList = ")#".toList := by decide

end Tree

end TextGrammar
