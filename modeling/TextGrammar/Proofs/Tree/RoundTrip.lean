import TextGrammar.Proofs.Outline.Printed
import TextGrammar.Proofs.Outline.Kept

/-!
# TextGrammar.Proofs.Tree.RoundTrip — reading what was printed

A document is read back from its printed form (`Tree.parse_print`).  The pieces of the printed form
are those of the document's items, and what stands below an item is printed inside its piece, so it is
read back first.  The induction is on the length of the printed form: whatever is printed inside a
piece is shorter than the whole.
-/

namespace TextGrammar

namespace Tree

/-! ### From a piece back to its item -/

/-- The trees that are printed inside an item. -/
def inner : Tree → List Tree
  | symbol _ calls => calls.flatMap Call.params
  | push _ value => value.alternatives
  | _ => []

theorem raws_piece (t : Tree) : t.piece.raws = t.inner.map print := by
  cases t with
  | symbol key calls =>
    rw [piece, Piece.raws, inner, List.flatMap_map, List.map_flatMap]
    rfl
  | _ => rfl

theorem Value.document_of_mem {t a : Tree} (h : t.Value) (ha : a ∈ t.alternatives) :
    a.Document := by
  cases h with
  | document h =>
    have hone : t.alternatives = [t] := by cases h <;> rfl
    rw [hone, List.mem_singleton] at ha
    rwa [ha]
  | select several documents => exact documents a ha

theorem Value.ofAlternatives_alternatives {t : Tree} (h : t.Value) :
    ofAlternatives t.alternatives = t := by
  cases h with
  | document h => cases h <;> rfl
  | select several => exact ofAlternatives_eq_select several

/-- What stands below a document is made of documents. -/
theorem Document.of_mem_inner {t b : Tree} (h : t.Document) (hb : b ∈ t.inner) : b.Document := by
  cases h with
  | symbol bare calls_ok =>
    obtain ⟨c, hc, hbc⟩ := List.mem_flatMap.1 hb
    cases calls_ok c hc with
    | mk bare documents => exact documents b hbc
  | push bare value_ok => exact value_ok.document_of_mem hb
  | literal | pop | concat => cases hb

theorem map_eq_self {α : Type} {f : α → α} {as : List α} (h : ∀ a ∈ as, f a = a) :
    as.map f = as :=
  (List.map_congr_left h).trans (List.map_id' as)

/-- **The tree of an item's piece is the item**, if what stands below it is read back. -/
theorem toTree_piece {t : Tree} (h : t.Document) (hi : t.IsItem)
    (hb : ∀ b ∈ t.inner, parse b.print = b) : t.piece.toTree parse = t := by
  -- what stands inside the item is read back by assumption; the item itself by its form
  cases h with
  | literal => rfl
  | @symbol key calls bare calls_ok =>
    have hcall : ∀ c ∈ calls, (RawCall.toCall parse ∘ Call.toRaw) c = c := by
      intro c hc
      obtain ⟨name, params⟩ := c
      have hparams : params.map (parse ∘ print) = params :=
        map_eq_self fun p hp => hb p (List.mem_flatMap.2 ⟨_, hc, hp⟩)
      show Call.mk name ((params.map print).map parse) = _
      rw [List.map_map, hparams]
    rw [piece, Piece.toTree, List.map_map, map_eq_self hcall]
  | @push key value bare value_ok =>
    have halts : value.alternatives.map (parse ∘ print) = value.alternatives := map_eq_self hb
    rw [piece, Piece.toTree, List.map_map, halts, value_ok.ofAlternatives_alternatives]
  | pop => rfl
  | concat => exact hi.elim

/-! ### Items of a document -/

/-- A document is made of items: the empty text of none, any other of at least one. -/
theorem Document.exists_items {t : Tree} (h : t.Document) :
    ∃ items : List Tree, items.flatMap print = t.print ∧ ofItems items = t ∧
      (∀ u ∈ items, u.Document) ∧ (∀ u ∈ items, u.IsItem) ∧ LiteralsApart items := by
  have hone : t.IsItem → ∃ items : List Tree, items.flatMap print = t.print ∧ ofItems items = t ∧
      (∀ u ∈ items, u.Document) ∧ (∀ u ∈ items, u.IsItem) ∧ LiteralsApart items := by
    intro hi
    refine ⟨[t], by simp, rfl, by simpa using h, by simpa using hi, ?_⟩
    cases t <;> trivial
  cases h with
  | literal text =>
    -- the empty text is printed as nothing and read as no items at all
    by_cases hne : text = []
    · subst hne
      exact ⟨[], rfl, rfl, by simp, by simp, trivial⟩
    · exact hone hne
  | symbol | push | pop => exact hone trivial
  | @concat items several documents are_items apart =>
    refine ⟨items, ?_, ofItems_eq_concat several, documents, are_items, apart⟩
    rw [print, printAll_eq_map, List.flatMap_def]

/-- **Reading undoes printing** on every document, however deep it nests. -/
theorem parse_print {t : Tree} (h : t.Document) : parse t.print = t := by
  -- on the length of the printed text: the raw texts in it are those of inner trees, and shorter
  induction hlen : t.print.length using Nat.strongRecOn generalizing t with
  | ind n ih =>
    obtain ⟨items, hprint, hof, hd, hi, ha⟩ := h.exists_items
    have houtline : outline t.print = items.map piece := by
      rw [← hprint]
      exact outline_flatMap_print hd hi ha
    have hinner : ∀ u ∈ items, ∀ b ∈ u.inner, parse b.print = b := by
      intro u hu b hb
      have hpiece : u.piece ∈ outline t.print := by
        rw [houtline]
        exact List.mem_map_of_mem hu
      have hraw : b.print ∈ u.piece.raws := by
        rw [raws_piece]
        exact List.mem_map_of_mem hb
      have hlt := length_lt_of_mem_outline hpiece hraw
      exact ih b.print.length (by omega) ((hd u hu).of_mem_inner hb) rfl
    have htrees : items.map (Piece.toTree parse ∘ piece) = items :=
      map_eq_self fun u hu => toTree_piece (hd u hu) (hi u hu) (hinner u hu)
    rw [parse_eq, houtline, List.map_map, htrees, hof]

/-- A document with marks, commas and backslashes in its texts, a choice, a call with a parameter
that is an action, and a pop. -/
theorem parse_print_nested :
    let value : Tree := .select [.literal ['P', 'O', 'P'], .symbol ['k'] [.mk ['f', ','] []]]
    let t : Tree := .concat [.literal ['#', '\\', ']'],
      .symbol ['k'] [.mk ['g'] [.push ['v'] value, .literal []]], .pop ['v']]
    t.Document ∧ parse t.print = t := by
  intro value t
  have hvalue : value.Value := by
    refine .select (by decide) fun a ha => ?_
    simp only [List.mem_cons, List.not_mem_nil, or_false] at ha
    rcases ha with rfl | rfl
    · exact .literal _
    · exact .symbol (by decide) fun c hc => List.mem_singleton.1 hc ▸ .mk (by decide) (by simp)
  have hcall : (Call.mk ['g'] [.push ['v'] value, .literal []]).Document := by
    refine .mk (by decide) fun p hp => ?_
    simp only [List.mem_cons, List.not_mem_nil, or_false] at hp
    rcases hp with rfl | rfl
    · exact .push (by decide) hvalue
    · exact .literal _
  have ht : t.Document := by
    refine .concat (by decide) (fun u hu => ?_) (fun u hu => ?_) trivial
    · simp only [List.mem_cons, List.not_mem_nil, or_false] at hu
      rcases hu with rfl | rfl | rfl
      · exact .literal _
      · exact .symbol (by decide) fun c hc => List.mem_singleton.1 hc ▸ hcall
      · exact .pop (by decide)
    · simp only [List.mem_cons, List.not_mem_nil, or_false] at hu
      rcases hu with rfl | rfl | rfl
      · exact List.cons_ne_nil _ _
      · trivial
      · trivial
  exact ⟨ht, parse_print ht⟩

end Tree

end TextGrammar
