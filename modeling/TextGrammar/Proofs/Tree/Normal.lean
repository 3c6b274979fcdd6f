import TextGrammar.Proofs.Outline.Cut
import TextGrammar.Proofs.Outline.Kept

/-!
# TextGrammar.Proofs.Tree.Normal — trees that are read are in normal form

Whatever a text is, its tree is a document (`Tree.document_parse`), and the tree of several texts is a
document or a choice between documents (`Tree.value_parseAlternatives`).  The pieces of an outline have
bare names, and no two texts are neighbours among them, since a text ends only where a construct begins.
What stands inside a piece is read in the same way, and is shorter.
-/

namespace TextGrammar

/-! ### Pieces in a row -/

theorem Tree.literalsApart_cons {t : Tree} {ts : List Tree} (hts : LiteralsApart ts)
    (h : t.isLiteral = true → ∀ u ∈ ts.head?, u.isLiteral = false) : LiteralsApart (t :: ts) := by
  cases t with
  | literal text =>
    cases ts with
    | nil => trivial
    | cons u ts =>
      cases u with
      | literal text' => cases h rfl (.literal text') rfl
      | _ => exact hts
  | _ => exact hts

theorem Piece.isLiteral_toTree (f : Text → Tree) (p : Piece) :
    (p.toTree f).isLiteral = p.isLiteral := by
  cases p <;> rfl

namespace Open

/-- By induction on the tokens: text is completed only where a construct begins, and what is completed
next is no text. -/
theorem apart_run (f : Text → Tree) {ts : List Token} (hts : ∀ t ∈ ts, t.WellFormed) {o : Open}
    (ho : o.Named) : Tree.LiteralsApart ((o.run ts).map (Piece.toTree f)) := by
  induction ts generalizing o with
  | nil =>
    rw [run]
    rcases finish_cases o with hnone | ⟨p, hone, -⟩
    · rw [hnone]
      trivial
    · rw [hone]
      exact Tree.literalsApart_cons trivial (by simp)
  | cons t ts ih =>
    obtain ⟨ht, hts⟩ := List.forall_mem_cons.1 hts
    have hstep := leads_step ho ht
    rw [run]
    generalize o.step t = r at hstep ⊢
    cases hstep with
    | stay named => exact ih hts named
    -- plain text is completed only where a construct begins, and then a construct is completed next
    | start text named opened =>
      refine Tree.literalsApart_cons (ih hts named) fun _ u hu => ?_
      rw [List.head?_map] at hu
      obtain ⟨p, hp, rfl⟩ := Option.map_eq_some_iff.1 hu
      rw [Piece.isLiteral_toTree]
      exact not_literal_of_mem_head?_run hts named opened p hp
    | @complete p named closed =>
      refine Tree.literalsApart_cons (ih hts (o := outside []) trivial) fun hl => ?_
      rw [Piece.isLiteral_toTree, closed] at hl
      cases hl

end Open

/-! ### From pieces to trees -/

namespace Tree

theorem document_ofItems {items : List Tree} (documents : ∀ t ∈ items, t.Document)
    (are_items : ∀ t ∈ items, t.IsItem) (apart : LiteralsApart items) :
    (ofItems items).Document := by
  cases items with
  | nil => exact .literal []
  | cons t rest =>
    cases rest with
    | nil => exact documents t (by simp)
    | cons u rest => exact .concat (by simp) documents are_items apart

theorem value_ofAlternatives {alternatives : List Tree}
    (documents : ∀ t ∈ alternatives, t.Document) : (ofAlternatives alternatives).Value := by
  cases alternatives with
  | nil => exact .document (.literal [])
  | cons t rest =>
    cases rest with
    | nil => exact .document (documents t (by simp))
    | cons u rest => exact .select (by simp) documents

end Tree

namespace Piece

variable {p : Piece} {f : Text → Tree}

theorem Named.isItem_toTree (h : p.Named) : (p.toTree f).IsItem := by
  cases p with
  | literal run => exact h
  | push | pop | tag => trivial

theorem Named.document_toTree (h : p.Named) (hraws : ∀ r ∈ p.raws, (f r).Document) :
    (p.toTree f).Document := by
  cases p with
  | literal run => exact .literal run
  | push key values =>
    have hvalues : ∀ t ∈ values.map f, t.Document := by
      intro t ht
      obtain ⟨r, hr, rfl⟩ := List.mem_map.1 ht
      exact hraws r hr
    exact .push h (Tree.value_ofAlternatives hvalues)
  | pop key => exact .pop h
  | tag key calls =>
    refine .symbol h.1 fun c hc => ?_
    obtain ⟨raw, hraw, rfl⟩ := List.mem_map.1 hc
    have hparams : ∀ t ∈ raw.params.map f, t.Document := by
      intro t ht
      obtain ⟨r, hr, rfl⟩ := List.mem_map.1 ht
      exact hraws r (List.mem_flatMap.2 ⟨raw, hraw, hr⟩)
    exact .mk (h.2 raw hraw) hparams

end Piece

namespace Tree

/-- **Every tree that is read is in normal form**, by induction on the length of the text. -/
theorem document_parse (s : Text) : (parse s).Document := by
  induction hlen : s.length using Nat.strongRecOn generalizing s with
  | ind n ih =>
    have hscan := Token.wellFormed_scan s
    have hnamed : ∀ p ∈ outline s, p.Named := Open.named_run hscan trivial
    have hdocument : ∀ p ∈ outline s, (p.toTree parse).Document := by
      intro p hp
      refine (hnamed p hp).document_toTree fun r hr => ?_
      -- raw texts are shorter than the text around them; this carries the induction on the length
      have hlt := length_lt_of_mem_outline hp hr
      exact ih r.length (by omega) r rfl
    have hapart : LiteralsApart ((outline s).map (Piece.toTree parse)) :=
      Open.apart_run parse hscan (o := .outside []) trivial
    rw [parse_eq]
    refine document_ofItems ?_ ?_ hapart
    · intro t ht
      obtain ⟨p, hp, rfl⟩ := List.mem_map.1 ht
      exact hdocument p hp
    · intro t ht
      obtain ⟨p, hp, rfl⟩ := List.mem_map.1 ht
      exact (hnamed p hp).isItem_toTree

/-- **What is read from several texts can be laid on a stack**: a document, or a choice between at
least two. -/
theorem value_parseAlternatives (texts : List Text) : (parseAlternatives texts).Value := by
  refine value_ofAlternatives fun t ht => ?_
  obtain ⟨s, -, rfl⟩ := List.mem_map.1 ht
  exact document_parse s

/-- **Reading gives normal forms**: one source text a document, several of them a document or a choice
between at least two. -/
theorem parse_normal (s : Text) (texts : List Text) :
    (parse s).Document ∧ (parseAlternatives texts).Value :=
  ⟨document_parse s, value_parseAlternatives texts⟩

/-! ### Text in front of a tree -/

/-- The tree with text in front: it joins text that stands first, and no row is put into a row. -/
def prepend (s : Text) : Tree → Tree
  | literal t => literal (s ++ t)
  | concat (literal t :: items) => concat (literal (s ++ t) :: items)
  | concat items => concat (literal s :: items)
  | t => concat [literal s, t]

theorem ofItems_prepend {s : Text} (hs : s ≠ []) (f : Text → Tree) (ps : List Piece) :
    ofItems ((Piece.prepend s ps).map (Piece.toTree f)) =
      (ofItems (ps.map (Piece.toTree f))).prepend s := by
  cases ps with
  | nil => simp [Piece.prepend, hs, ofItems, prepend, Piece.toTree]
  | cons p ps =>
    cases p with
    | literal t => cases ps <;> rfl
    | push | pop | tag => cases ps <;> simp [Piece.prepend, hs, ofItems, prepend, Piece.toTree]

/-- **Plain text in front of a text stands in front of its tree.**  So the body of an action that only
begins with the word `POP` is what follows, with the word in front. -/
theorem parse_plain_append {s : Text} (hs : s.Plain) (hne : s ≠ []) (b : Text) :
    parse (s ++ b) = (parse b).prepend s := by
  rw [parse_eq, outline_plain_append hs, ofItems_prepend hne, ← parse_eq]

theorem parse_popWord_append (b : Text) : parse (popWord ++ b) = (parse b).prepend popWord :=
  parse_plain_append (by decide) (by decide) b

end Tree

end TextGrammar
