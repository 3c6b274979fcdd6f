import TextGrammar.Proofs.Outline.Escaped
import TextGrammar.Proofs.Tree.Normal

/-!
# TextGrammar.Proofs.Tree.Values — values are texts of their own

What stands between the separators of an action or of a call is read as a document of its own, with
exactly one level of escapes taken away (`Tree.parse_values`).  The word `POP` is special only as the
whole body of an action: escapes in it do not matter, and what merely begins with it is text.
-/

namespace TextGrammar

namespace Text

/-- The action with these values, as they are written. -/
def action (key : Text) (values : List Text) : Text := '[' :: (key ++ ':' :: (listed values ++ [']']))

/-- The tag with one call and its parameters, as they are written. -/
def application (key name : Text) (params : List Text) : Text :=
  '#' :: (key ++ '.' :: (name ++ '(' :: (listed params ++ [')', '#'])))

end Text

section

variable {key : Text} (plain : key.Plain) {segments : List Text} (hne : segments ≠ [])

include plain hne

theorem outline_action (hs : ∀ v ∈ segments, v.Segment .rightBracket) :
    outline (Text.action key segments) = [Open.bodyPiece key (segments.map Text.unescaped)] := by
  have hkey := Open.names_action.run_plain plain .colon (Text.listed segments ++ [']'])
  have hbody := Open.run_body key hne hs []
  show Open.action.run (Token.scan _) = _
  exact hkey.trans hbody

theorem outline_application {name : Text} (hname : name.Plain)
    (hs : ∀ v ∈ segments, v.Segment .rightParen) :
    outline (Text.application key name segments) =
      [.tag key [⟨name, segments.map Text.unescaped⟩]] := by
  have hkey := Open.names_tag.run_plain plain .period
    (name ++ '(' :: (Text.listed segments ++ [')', '#']))
  have hcall := (Open.names_callPeriod key []).run_plain hname .leftParen
    (Text.listed segments ++ [')', '#'])
  have hparams := (Open.lists_callParams key [] name).run_segments hne hs [] ['#']
  show Open.tag.run (Token.scan _) = _
  exact hkey.trans (hcall.trans hparams)

end

namespace Tree

/-- **Values are read with one level of escapes taken away.**  An only value that then is the word `POP`
makes the action a pop.  Any other only value is pushed as the tree of its text, and several values as
the choice between theirs; so a value that begins with the word has it as text in front of the tree of
what follows it.  The parameters of a call are the trees of their texts, whatever these are. -/
theorem parse_values {key : Text} (plain : key.Plain) :
    (∀ v : Text, v.Segment .rightBracket → parse (Text.action key [v]) =
      if Text.unescaped v = popWord then pop key else push key (parse (Text.unescaped v))) ∧
    (∀ values : List Text, 2 ≤ values.length → (∀ v ∈ values, v.Segment .rightBracket) →
      parse (Text.action key values) =
        push key (select (values.map fun v => parse (Text.unescaped v)))) ∧
    (∀ rest : Text, parse (popWord ++ rest) = (parse rest).prepend popWord) ∧
    (∀ (name : Text) (params : List Text), name.Plain → params ≠ [] →
      (∀ v ∈ params, v.Segment .rightParen) → parse (Text.application key name params) =
        symbol key [.mk name (params.map fun v => parse (Text.unescaped v))]) := by
  refine ⟨fun v hv => ?_, fun values htwo hs => ?_, parse_popWord_append,
    fun name params hname hne hs => ?_⟩
  · have hone : ∀ u ∈ [v], u.Segment .rightBracket := by simpa using hv
    rw [parse_eq, outline_action plain (List.cons_ne_nil v []) hone, List.map_singleton,
      Open.bodyPiece]
    by_cases hpop : Text.unescaped v = popWord
    · rw [if_pos hpop, if_pos (by simpa using hpop)]
      rfl
    · rw [if_neg hpop, if_neg (by simpa using hpop)]
      rfl
  · have hne : values ≠ [] := List.ne_nil_of_length_pos (by omega)
    -- the word is a pop only as the one value, and here there are two at least
    have hseveral : values.map Text.unescaped ≠ [popWord] := by
      intro hpop
      have hlength := congrArg List.length hpop
      rw [List.length_map, List.length_singleton] at hlength
      omega
    rw [parse_eq, outline_action plain hne hs, Open.bodyPiece, if_neg hseveral, List.map_singleton,
      Piece.toTree, ofAlternatives_eq_select (by simpa using htwo), List.map_map]
    rfl
  · rw [parse_eq, outline_application plain hne hname hs, List.map_singleton, Piece.toTree,
      List.map_singleton, RawCall.toCall, List.map_map]
    rfl

/-- The word `POP` with escapes in it, in front of other text, and among several values; a doubled
escape, and a mark that only its escape keeps inside. -/
theorem parse_values_escapes :
    let key : Text := ['k']
    let word : Text := ['P', 'O', 'P']
    key.Plain ∧ parse (Text.action key ["\\PO\\P".toList]) = pop key ∧
      parse (Text.action key ["POP #\\a#\\,".toList]) =
        push key (concat [.literal "POP ".toList, symbol ['a'] [], .literal [',']]) ∧
      parse (Text.action key [word, "\\\\#".toList]) =
        push key (select [.literal word, .literal ['#']]) ∧
      parse (Text.application key ['m'] [word, "[b:c\\)]".toList]) =
        symbol key [.mk ['m'] [.literal word, push ['b'] (.literal ['c', ')'])]] := by
  intro key word
  have hkey : key.Plain := by decide
  obtain ⟨hone, hseveral, -, hcall⟩ := parse_values hkey
  exact ⟨hkey, hone _ (by decide), hone _ (by decide), hseveral _ (by decide) (by decide),
    hcall _ _ (by decide) (by decide) (by decide)⟩

end Tree

end TextGrammar
