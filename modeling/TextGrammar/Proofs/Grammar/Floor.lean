import TextGrammar.Proofs.Run.Session

/-!
# TextGrammar.Proofs.Grammar.Floor — the first value of a key stays

Whatever moves are made, the bottom of a stack is the first value that its key ever had
(`Grammar.getLast?_stack_after`): a single move keeps the bottom, or lays it if there is none, since a
pop leaves the last entry.  Evaluations and commands are made of moves, so a key that has a value keeps
one through every session, and reading it can fail by the guard alone (`Command.floor_permanent`).
-/

namespace TextGrammar

namespace Grammar

/-! ### The bottom of a stack -/

/-- The first value that a key ever had, when the moves have been made: the bottom of its stack before
them, or else the first value that they lay there. -/
def firstValue (g : Grammar) (key : Text) (ms : List Move) : Option Tree :=
  (g.stack key).getLast?.or (ms.findSome? (Move.laid? key))

theorem getLast?_stack_apply (g : Grammar) (m : Move) (key : Text) :
    ((m.apply g).stack key).getLast? = (g.stack key).getLast?.or (m.laid? key) := by
  obtain ⟨hm, hst⟩ | ⟨value, hm, hst⟩ | ⟨hm, top, next, rest, hg, hst⟩ := m.stack_cases g key
  · rw [hm, hst, Option.or_none]
  · rw [hm, hst, List.getLast?_cons]
    cases (g.stack key).getLast? <;> rfl
  · rw [hm, hst, hg, Option.or_none, List.getLast?_cons_cons]

/-- **The bottom of a stack is the first value of its key**, by induction on the moves. -/
theorem getLast?_stack_after (g : Grammar) (ms : List Move) (key : Text) :
    ((g.after ms).stack key).getLast? = g.firstValue key ms := by
  induction ms generalizing g with
  | nil => exact Option.or_none.symm
  | cons m ms ih =>
    have hfirst : (m :: ms).findSome? (Move.laid? key) =
        (m.laid? key).or (ms.findSome? (Move.laid? key)) := by
      cases hm : m.laid? key <;> simp [hm]
    rw [after_cons, ih, firstValue, firstValue, getLast?_stack_apply, Option.or_assoc, hfirst]

/-- The first value is not replaced by a later one. -/
theorem firstValue_append {g : Grammar} {key : Text} {ms : List Move} {first : Tree}
    (h : g.firstValue key ms = some first) (ns : List Move) :
    g.firstValue key (ms ++ ns) = some first := by
  rw [firstValue, List.findSome?_append, ← Option.or_assoc]
  exact Option.or_eq_some_iff.2 (.inl h)

theorem isSome_lookup (g : Grammar) (key : Text) :
    (g.lookup key).isSome = (g.stack key).getLast?.isSome := by
  rw [lookup, Bool.eq_iff_iff, List.isSome_head?, List.getLast?_isSome]

end Grammar

/-! ### Reading a key that has a value -/

/-- **Reading a key with a value**: if the guard refuses it, it stands for itself in parentheses, and if
not, its value is expanded. -/
theorem Tree.full_writeWith_of_value {g : Grammar} {key : Text} (hkey : (g.lookup key).isSome = true)
    {calls : List Call} {expand : Tree → Run (Chain Char)} {q : Outcome (Chain Char)}
    (hq : ((symbol key calls).writeWith expand).full g = some q) :
    (g.admits = false ∧ q = ⟨.ofList (unresolvedKey key), .ofList [.refused key], g⟩) ∨
    (g.admits = true ∧ ∃ value o p, g.lookup key = some value ∧
      (expand value).full g.enter = some o ∧
      (applyAllWith expand calls o.value).full o.grammar.leave = some p ∧
      q = .ofRead key (g.depth + 1) o p) := by
  rw [writeWith_symbol] at hq
  obtain ⟨hnone, -⟩ | ⟨_, -, hga, rfl⟩ | ⟨value, o, p, hg, hga, ho, hp, rfl⟩ := Run.full_read_cases hq
  · rw [hnone] at hkey
    cases hkey
  · exact .inl ⟨hga, rfl⟩
  · exact .inr ⟨hga, value, o, p, hg, ho, hp, rfl⟩

namespace Command

/-- **The first value of a key is a permanent floor.**  A session is a list of moves.  At every point of
it the bottom of a stack is the first value of its key, so a key without one has an empty stack.  Once
there is a first value, at every later point it is at the bottom, the stack is not empty and the key has
a current value; so no read finds it undefined, and the key stands for itself only where the guard
refuses it. -/
theorem floor_permanent {nesting : Nat} {commands : List Command} {g : Grammar}
    {o : Outcome (List Answer)} (ho : (performAll nesting commands).full g = some o) (key : Text) :
    ∃ moves, g.Makes moves o.events o.grammar ∧
      (∀ done rest, moves = done ++ rest →
        ((g.after done).stack key).getLast? = g.firstValue key done) ∧
      ∀ done mid rest first, moves = done ++ mid ++ rest → g.firstValue key done = some first →
        let h := g.after (done ++ mid)
        (h.stack key).getLast? = some first ∧ h.stack key ≠ [] ∧ (h.lookup key).isSome = true ∧
          rest.head? ≠ some (.undefined key) ∧
          ∀ calls expand q, ((Tree.symbol key calls).writeWith expand).full h = some q →
            (h.admits = false ∧ q.value = .ofList (unresolvedKey key) ∧ q.events = [.refused key]) ∨
              (h.admits = true ∧ q.events.head? = some (.entered key (h.depth + 1))) := by
  have hsession : Run.Moves (fun _ _ => True) g o.events o.grammar :=
    performAll_moves (fun _ _ => trivial) nesting (fun _ _ _ _ _ => trivial) ho
  obtain ⟨moves, hmakes, -⟩ := hsession
  refine ⟨moves, hmakes, fun done _ _ => g.getLast?_stack_after done key, ?_⟩
  rintro done mid rest first rfl hfirst h
  -- whatever is done after it, the first value is at the bottom; all the rest is read off from this
  have hbottom : (h.stack key).getLast? = some first := by
    rw [g.getLast?_stack_after, Grammar.firstValue_append hfirst]
  have hvalue : (h.lookup key).isSome = true := by
    rw [Grammar.isSome_lookup, hbottom]
    rfl
  refine ⟨hbottom, ?_, hvalue, ?_, ?_⟩
  · intro hnil
    rw [hnil] at hbottom
    cases hbottom
  -- a read counts as undefined only where the stack is empty
  · intro hhead
    obtain ⟨rest, rfl⟩ := List.head?_eq_some_iff.1 hhead
    have hundefined : h.lookup key = none := hmakes.fits_of_append
    rw [hundefined] at hvalue
    cases hvalue
  · intro calls expand q hq
    rcases Tree.full_writeWith_of_value hvalue hq with ⟨hga, rfl⟩ | ⟨hga, _, _, _, -, -, -, rfl⟩
    · exact .inl ⟨hga, rfl, rfl⟩
    · exact .inr ⟨hga, by simp⟩

/-- The first value is laid inside a parameter.  Another one above it is popped once more than it is
there, and at last the guard refuses the key. -/
theorem floor_permanent_popped :
    let g := (Grammar.ofSource (.fixed 0)).push ['s'] (.literal [])
    let nested : Command := .resolve (.symbol ['s'] [.mk ['f'] [.push ['k'] (.literal ['a'])]])
    let source : Text := "[k:b][k:POP][k:POP]#k#".toList
    let commands := [.register [(['f'], fun s _ => s)], nested, .flatten source, .pop ['k'],
      .setMaxDepth (some 0), .flatten "#k#".toList]
    ∃ o, (performAll 1 commands).full g = some o ∧
      o.value = [.done, .text [], .text ['a'], .done, .done, .text (unresolvedKey ['k'])] ∧
      ∃ moves first, g.Makes moves o.events o.grammar ∧ g.firstValue ['k'] moves = some first ∧
        o.grammar.stack ['k'] = [first] := by
  intro g nested source commands
  obtain ⟨o, ho, hov⟩ : ∃ o, (performAll 1 commands).full g = some o ∧
      (o.value, (o.grammar.stack ['k']).length) =
        ([.done, .text [], .text ['a'], .done, .done, .text (unresolvedKey ['k'])], 1) :=
    Option.map_eq_some_iff.1 (by decide +kernel)
  obtain ⟨hvalue, hlength⟩ := Prod.mk.inj hov
  obtain ⟨first, hstack⟩ := List.length_eq_one_iff.1 hlength
  obtain ⟨moves, hmakes, hbottom, -⟩ := floor_permanent ho ['k']
  have hfirst : g.firstValue ['k'] moves = some first := by
    rw [← hbottom moves [] (List.append_nil moves).symm, hmakes.after_eq, hstack]
    rfl
  exact ⟨o, ho, hvalue, moves, first, hmakes, hfirst, hstack⟩

end Command

end TextGrammar
