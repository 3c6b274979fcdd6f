import Mathlib.Data.List.Flatten
import TextGrammar.Proofs.Tree.PlainText
import TextGrammar.Tree.Content

/-!
# TextGrammar.Proofs.Tree.Content — what a tree takes from its text

The texts in a tree are characters of the text that it was read from, in the same order and no more often
(`Tree.content_parse`), and the tree has at most twice as many nodes as the text has characters, and one
(`Tree.parse_linear`).  Both are read off the outline: what a piece makes of its raw texts is measured
against what the piece keeps of the text around them (`Piece.kept`), and the raw texts are shorter.
-/

namespace TextGrammar

/-! ### Texts of a tree -/

namespace Tree

theorem content_ofItems (items : List Tree) : (ofItems items).content = items.flatMap content := by
  cases items with
  | nil => rfl
  | cons t rest =>
    cases rest with
    | nil => simp [ofItems]
    | cons u rest =>
      show contentOfAll (t :: u :: rest) = _
      rw [contentOfAll_eq_flatMap]

theorem content_ofAlternatives (alternatives : List Tree) :
    (ofAlternatives alternatives).content = alternatives.flatMap content := by
  cases alternatives with
  | nil => rfl
  | cons t rest =>
    cases rest with
    | nil => simp [ofAlternatives]
    | cons u rest =>
      show contentOfAll (t :: u :: rest) = _
      rw [contentOfAll_eq_flatMap]

end Tree

section

variable {f : Text → Tree}

/-- What is read from texts one by one keeps to them, and the commas between them are left out. -/
theorem flatMap_content_sublist {texts : List Text}
    (h : ∀ r ∈ texts, List.Sublist (f r).content r) :
    List.Sublist ((texts.map f).flatMap Tree.content) (Text.listed texts) := by
  have hflat : List.Sublist (texts.flatMap fun r => (f r).content) (texts.flatMap id) :=
    List.Sublist.flatMap_right texts h
  rw [List.flatMap_map]
  rw [List.flatMap_id] at hflat
  exact hflat.trans (Text.flatten_sublist_listed texts)

theorem RawCall.content_toCall_sublist {c : RawCall}
    (h : ∀ r ∈ c.params, List.Sublist (f r).content r) :
    List.Sublist (c.toCall f).content c.kept := by
  rw [toCall, Call.content, contentOfAll_eq_flatMap, kept]
  refine List.Sublist.append (List.sublist_cons_self _ _) ?_
  by_cases hnone : c.params = []
  · simp [hnone]
  · rw [if_neg hnone]
    exact (flatMap_content_sublist h).cons _

/-- **The tree of a construct** leaves out the mark that opens the construct. -/
theorem Piece.content_toTree_sublist_tail {p : Piece} (hp : p.isLiteral = false)
    (h : ∀ r ∈ p.raws, List.Sublist (f r).content r) :
    List.Sublist (p.toTree f).content p.kept.tail := by
  cases p with
  | literal run => cases hp
  | push key values =>
    rw [toTree, Tree.content, Tree.content_ofAlternatives]
    exact (flatMap_content_sublist h).append_left key
  | pop key => exact List.Sublist.refl key
  | tag key calls =>
    rw [toTree, Tree.content, contentOfCalls_eq_flatMap, List.flatMap_map]
    have hcalls : List.Sublist (calls.flatMap fun c => (c.toCall f).content)
        (calls.flatMap RawCall.kept) := by
      refine List.Sublist.flatMap_right calls fun c hc => ?_
      exact RawCall.content_toCall_sublist fun r hr => h r (List.mem_flatMap.2 ⟨c, hc, hr⟩)
    exact hcalls.append_left key

theorem Piece.content_toTree_sublist {p : Piece} (h : ∀ r ∈ p.raws, List.Sublist (f r).content r) :
    List.Sublist (p.toTree f).content p.kept := by
  cases hp : p.isLiteral with
  | true =>
    cases p with
    | literal run => exact List.Sublist.refl run
    | push | pop | tag => cases hp
  | false => exact (Piece.content_toTree_sublist_tail hp h).trans (List.tail_sublist _)

theorem Piece.kept_ne_nil {p : Piece} (hp : p.isLiteral = false) : p.kept ≠ [] := by
  cases p with
  | literal run => cases hp
  | push | pop | tag => exact List.cons_ne_nil _ _

/-- A construct among the pieces costs a character at least. -/
theorem length_flatMap_content_lt {ps : List Piece}
    (h : ∀ p ∈ ps, ∀ r ∈ p.raws, List.Sublist (f r).content r)
    (hconstruct : ∃ p ∈ ps, p.isLiteral = false) :
    (ps.flatMap fun p => (p.toTree f).content).length < (ps.flatMap Piece.kept).length := by
  obtain ⟨p, hp, hl⟩ := hconstruct
  obtain ⟨before, behind, rfl⟩ := List.append_of_mem hp
  -- no piece has more content than it keeps, and the construct has less, for its first mark is none
  have hle : ∀ qs : List Piece, (∀ q ∈ qs, q ∈ before ++ p :: behind) →
      (qs.flatMap fun q => (q.toTree f).content).length ≤ (qs.flatMap Piece.kept).length := by
    intro qs hqs
    exact (List.Sublist.flatMap_right qs fun q hq =>
      Piece.content_toTree_sublist (h q (hqs q hq))).length_le
  have hbefore := hle before fun q hq => List.mem_append_left _ hq
  have hbehind := hle behind fun q hq => List.mem_append_right _ (List.mem_cons_of_mem p hq)
  have htail := (Piece.content_toTree_sublist_tail hl (h p hp)).length_le
  have hpos := List.length_pos_iff.2 (Piece.kept_ne_nil hl)
  rw [List.length_tail] at htail
  simp only [List.flatMap_append, List.flatMap_cons, List.length_append]
  omega

end

namespace Tree

theorem content_parse_eq (s : Text) :
    (parse s).content = (outline s).flatMap fun p => (p.toTree parse).content := by
  rw [parse_eq, content_ofItems, List.flatMap_map]

/-- **What is read keeps to the text without its escapes**, by induction on the length of the text. -/
theorem content_parse_sublist (s : Text) : List.Sublist (parse s).content (Text.unescaped s) := by
  induction hlen : s.length using Nat.strongRecOn generalizing s with
  | ind n ih =>
    have hraws : ∀ p ∈ outline s, ∀ r ∈ p.raws, List.Sublist (parse r).content r := by
      intro p hp r hr
      have hlt := length_lt_of_mem_outline hp hr
      exact (ih r.length (by omega) r rfl).trans (Text.unescaped_sublist r)
    have hpieces : List.Sublist ((outline s).flatMap fun p => (p.toTree parse).content)
        ((outline s).flatMap Piece.kept) :=
      List.Sublist.flatMap_right _ fun p hp => Piece.content_toTree_sublist (hraws p hp)
    rw [content_parse_eq]
    exact hpieces.trans (outline_sublist_unescaped s)

theorem content_parse_sublist_self (s : Text) : List.Sublist (parse s).content s :=
  (content_parse_sublist s).trans (Text.unescaped_sublist s)

/-- **Reading never invents, doubles or reorders text**: what stands in the tree stands in the text in
that order.  Nothing but the escaping backslashes is left out exactly if the text opens no construct. -/
theorem content_parse (s : Text) : List.Sublist (parse s).content s ∧
    ((parse s).content = Text.unescaped s ↔ s.OpensNothing) := by
  refine ⟨content_parse_sublist_self s, fun h => ?_, fun h => ?_⟩
  · refine Decidable.byContradiction fun hnot => ?_
    have hlt : ((outline s).flatMap fun p => (p.toTree parse).content).length <
        ((outline s).flatMap Piece.kept).length :=
      length_flatMap_content_lt (fun _ _ r _ => content_parse_sublist_self r)
        (exists_not_literal_outline hnot)
    have hle := (outline_sublist_unescaped s).length_le
    rw [← content_parse_eq, h] at hlt
    omega
  · rw [parse_of_opensNothing h]
    rfl

/-- Of four backslashes in a value one is left, commas and periods that part are left out, and so is what
is neither name nor call in a tag; an open action ends with the text. -/
example : (parse "a\\#[k:x\\\\\\\\,b]#n o.p(q)#[r:s".toList).content = "a#kx\\bnpqrs".toList := by
  decide +kernel

end Tree

/-! ### Nodes of a tree -/

theorem Tree.size_ofItems_le (items : List Tree) : (ofItems items).size ≤ 1 + sizeOfAll items := by
  cases items with
  | nil => exact Nat.le_refl 1
  | cons t rest =>
    cases rest with
    | nil =>
      simp only [ofItems, sizeOfAll]
      omega
    | cons u rest => exact Nat.le_refl _

section

variable {f : Text → Tree}

/-- Texts that are parted by commas: the commas pay for the node that each text has beyond twice its
length, but for the last. -/
theorem sizeOfAll_map_le {texts : List Text} (hne : texts ≠ [])
    (h : ∀ r ∈ texts, (f r).size ≤ 2 * r.length + 1) :
    sizeOfAll (texts.map f) + texts.length ≤ 2 * ((Text.listed texts).length + 1) := by
  rw [Text.length_listed hne]
  clear hne
  induction texts with
  | nil => exact Nat.le_refl 0
  | cons t texts ih =>
    obtain ⟨ht, hrest⟩ := List.forall_mem_cons.1 h
    have hsum := ih hrest
    rw [List.map_cons, sizeOfAll, List.flatten_cons, List.length_append, List.length_cons]
    omega

/-- **The values of an action** are no larger than one text as long as all of them. -/
theorem size_ofAlternatives_le {values : List Text}
    (h : ∀ r ∈ values, (f r).size ≤ 2 * r.length + 1) :
    (Tree.ofAlternatives (values.map f)).size ≤ 2 * (Text.listed values).length + 1 := by
  cases values with
  | nil => exact Nat.le_refl 1
  | cons v rest =>
    cases rest with
    | nil => simpa [Tree.ofAlternatives] using h v (by simp)
    | cons w rest =>
      have hsum := sizeOfAll_map_le (List.cons_ne_nil v (w :: rest)) h
      show 1 + sizeOfAll ((v :: w :: rest).map f) ≤ _
      simp only [List.length_cons] at hsum
      omega

theorem RawCall.size_toCall_le {c : RawCall} (h : ∀ r ∈ c.params, (f r).size ≤ 2 * r.length + 1) :
    (c.toCall f).size ≤ 2 * c.kept.length := by
  rw [toCall, Call.size, kept]
  by_cases hnone : c.params = []
  · rw [hnone, List.map_nil, sizeOfAll, List.length_append, List.length_cons]
    omega
  · have hsum := sizeOfAll_map_le hnone h
    have hpos := List.length_pos_iff.2 hnone
    rw [if_neg hnone, List.length_append, List.length_cons, List.length_cons]
    omega

theorem sizeOfCalls_toCall_le {calls : List RawCall}
    (h : ∀ c ∈ calls, (c.toCall f).size ≤ 2 * c.kept.length) :
    sizeOfCalls (calls.map (RawCall.toCall f)) ≤ 2 * (calls.flatMap RawCall.kept).length := by
  induction calls with
  | nil => exact Nat.le_refl 0
  | cons c calls ih =>
    obtain ⟨hc, hcalls⟩ := List.forall_mem_cons.1 h
    have hrest := ih hcalls
    rw [List.map_cons, sizeOfCalls, List.flatMap_cons, List.length_append]
    omega

/-- **A piece has at most two nodes for each character that it keeps**: its opening mark pays for the
construct and for what its last raw text has too much. -/
theorem Piece.Named.size_toTree_le {p : Piece} (named : p.Named)
    (h : ∀ r ∈ p.raws, (f r).size ≤ 2 * r.length + 1) :
    (p.toTree f).size ≤ 2 * p.kept.length := by
  -- the mark of a piece pays for its node, its raw texts pay for the nodes inside
  cases p with
  | literal run =>
    have hpos := List.length_pos_iff.2 named
    rw [toTree, Tree.size, kept]
    omega
  | push key values =>
    have hvalues : (Tree.ofAlternatives (values.map f)).size ≤ _ := size_ofAlternatives_le h
    rw [toTree, Tree.size, kept, List.length_append, List.length_cons]
    omega
  | pop key =>
    rw [toTree, Tree.size, kept, List.length_cons]
    omega
  | tag key calls =>
    have hcalls := sizeOfCalls_toCall_le fun c hc =>
      RawCall.size_toCall_le fun r hr => h r (List.mem_flatMap.2 ⟨c, hc, hr⟩)
    rw [toTree, Tree.size, kept, List.length_append, List.length_cons]
    omega

theorem sizeOfAll_toTree_le {ps : List Piece}
    (h : ∀ p ∈ ps, (p.toTree f).size ≤ 2 * p.kept.length) :
    sizeOfAll (ps.map (Piece.toTree f)) ≤ 2 * (ps.flatMap Piece.kept).length := by
  induction ps with
  | nil => exact Nat.le_refl 0
  | cons p ps ih =>
    obtain ⟨hp, hps⟩ := List.forall_mem_cons.1 h
    have hrest := ih hps
    rw [List.map_cons, sizeOfAll, List.flatMap_cons, List.length_append]
    omega

end

namespace Tree

/-- **A tree has at most twice as many nodes as its text has characters, and one**, by induction on the
length of the text. -/
theorem size_parse_le (s : Text) : (parse s).size ≤ 2 * s.length + 1 := by
  induction hlen : s.length using Nat.strongRecOn generalizing s with
  | ind n ih =>
    have hnamed : ∀ p ∈ outline s, p.Named := Open.named_run (Token.wellFormed_scan s) trivial
    have hpieces : sizeOfAll ((outline s).map (Piece.toTree parse)) ≤
        2 * ((outline s).flatMap Piece.kept).length := by
      refine sizeOfAll_toTree_le fun p hp => (hnamed p hp).size_toTree_le fun r hr => ?_
      have hlt := length_lt_of_mem_outline hp hr
      exact ih r.length (by omega) r rfl
    have hitems := size_ofItems_le ((outline s).map (Piece.toTree parse))
    have hkept := (outline_sublist s).length_le
    rw [parse_eq]
    omega

/-- **Reading comes to an end, and what it gives is linear in the text.**  One step is made for each token,
of which there are no more than characters.  Every raw text that is read inside the text is shorter than
it is, so as many levels as the text has characters are enough, and more change nothing: the tree is made
of the outline, with the raw texts read in the same way.  It has at most twice as many nodes as the text
has characters, and one. -/
theorem parse_linear (s : Text) :
    (Token.scan s).length ≤ s.length ∧
      (∀ p ∈ outline s, ∀ r ∈ p.raws, r.length < s.length) ∧
      (∀ depth, s.length ≤ depth → parseWithin depth s = parse s) ∧
      parse s = ofItems ((outline s).map (Piece.toTree parse)) ∧
      (parse s).size ≤ 2 * s.length + 1 :=
  ⟨Token.length_scan_le s, fun _ hp _ hr => length_lt_of_mem_outline hp hr,
    fun _ hdepth => parseWithin_congr hdepth (Nat.le_refl _), parse_eq s, size_parse_le s⟩

/-- An open action whose values are both empty, behind other text: two nodes for each character. -/
theorem parse_linear_open :
    let s : Text := "a[,".toList
    Piece.push [] [[], []] ∈ outline s ∧ ([] : Text).length < s.length ∧ s.length ≤ 7 ∧
      parseWithin 7 s = parse s ∧ (parse s).size = 6 ∧ (parse s).size ≤ 2 * s.length + 1 := by
  intro s
  obtain ⟨-, hraws, hdepth, -, hsize⟩ := parse_linear s
  have hmem : Piece.push [] [[], []] ∈ outline s := by decide
  have hlength : s.length ≤ 7 := by decide
  exact ⟨hmem, hraws _ hmem [] (by decide), hlength, hdepth 7 hlength, by decide, hsize⟩

end Tree

end TextGrammar
