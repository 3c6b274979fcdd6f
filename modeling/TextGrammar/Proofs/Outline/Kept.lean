import TextGrammar.Outline.Build
import TextGrammar.Proofs.Token.Scan
import TextGrammar.Tree.Parse

/-!
# TextGrammar.Proofs.Outline.Kept — what an outline keeps of its text

Reading tokens never invents, doubles or reorders text: what the pieces of an outline hold, with the
marks that open and part it, stands in the text in that order (`outline_sublist`).  The raw texts inside
a piece leave at least the opening mark out, so they are shorter than the text they are taken from
(`length_lt_of_mem_outline`).

The invariant is `Open.kept`, what has been read of an open construct: no step makes more of it than
the token that is read (`Open.step_sublist`).

`Tree.parse` bounds how deep documents nest by the length of the text.  The bound is never met, since
raw texts are shorter than the text around them.  So a tree is read off the outline of its text, with
the raw texts read in the same way (`Tree.parse_eq`), and that equation is all that proofs about
reading need.
-/

namespace TextGrammar

namespace Text

theorem listed_concat (texts : List Text) (t : Text) :
    listed (texts ++ [t]) = texts.flatMap (· ++ [',']) ++ t := by
  induction texts with
  | nil => simp
  | cons u texts ih =>
    cases texts with
    | nil => simp
    | cons v rest =>
      rw [List.cons_append, List.cons_append, listed_cons_cons, ← List.cons_append, ih]
      simp

/-- Between texts stands one comma less than there are texts. -/
theorem length_listed {texts : List Text} (h : texts ≠ []) :
    (listed texts).length + 1 = texts.flatten.length + texts.length := by
  induction texts with
  | nil => exact absurd rfl h
  | cons t texts ih =>
    cases texts with
    | nil => simp
    | cons u rest =>
      have hrest := ih (List.cons_ne_nil u rest)
      rw [listed_cons_cons, List.length_append, List.length_cons, List.flatten_cons,
        List.length_append, List.length_cons]
      omega

theorem flatten_sublist_listed (texts : List Text) : List.Sublist texts.flatten (listed texts) := by
  induction texts with
  | nil => exact .slnil
  | cons t texts ih =>
    cases texts with
    | nil => simp
    | cons u rest =>
      rw [listed_cons_cons, List.flatten_cons]
      exact (ih.cons ',').append_left t

end Text

/-- The texts of a call in order, with the marks that open and part them. -/
def RawCall.kept (c : RawCall) : Text :=
  '.' :: c.name ++ (if c.params = [] then [] else '(' :: Text.listed c.params)

/-- The texts of a piece in order, with the marks that open and part them. -/
def Piece.kept : Piece → Text
  | literal run => run
  | push key values => '[' :: key ++ Text.listed values
  | pop key => '[' :: key
  | tag key calls => '#' :: key ++ calls.flatMap RawCall.kept

namespace Open

/-- The texts of an open construct in order, with the marks that open and part them. -/
def kept : Open → Text
  | outside run => run.reverse
  | action => ['[']
  | actionKey key | actionColon key => '[' :: key
  | actionPop key => '[' :: key ++ popWord
  | actionBody key values raw => '[' :: key ++ Text.listed (complete values raw)
  | tag => ['#']
  | tagCalls key calls => '#' :: key ++ calls.reverse.flatMap RawCall.kept
  | callPeriod key calls => '#' :: key ++ calls.reverse.flatMap RawCall.kept ++ ['.']
  | callName key calls name => '#' :: key ++ calls.reverse.flatMap RawCall.kept ++ '.' :: name
  | callParams key calls name params raw =>
    '#' :: key ++ calls.reverse.flatMap RawCall.kept ++ '.' :: name ++
      '(' :: Text.listed (complete params raw)

/-- What is kept behind one token: the pieces that it completes and what it leaves open. -/
def keptBy (r : Open × List Piece) : Text := r.2.flatMap Piece.kept ++ r.1.kept

@[simp] theorem flatMap_kept_flush (run : Text) : (flush run).flatMap Piece.kept = run.reverse := by
  cases run <;> simp [flush, Piece.kept]

@[simp] theorem reverse_extend (t : Token) (raw : Text) :
    (extend t raw).reverse = raw.reverse ++ t.value := by
  simp [extend]

@[simp] theorem complete_ne_nil (values : List Text) (raw : Text) : complete values raw ≠ [] := by
  simp [complete]

@[simp] theorem listed_complete (values : List Text) (raw : Text) :
    Text.listed (complete values raw) = values.reverse.flatMap (· ++ [',']) ++ raw.reverse := by
  rw [complete, List.reverse_cons, Text.listed_concat]

/-! ### One token -/

theorem stepBody_sublist (key : Text) (values : List Text) (raw : Text) (t : Token) :
    List.Sublist (keptBy (stepBody key values raw t))
      ((actionBody key values raw).kept ++ t.value) := by
  unfold stepBody
  split <;> simp [keptBy, kept, Piece.kept, Token.value, Mark.char]

theorem stepColon_sublist (key : Text) (t : Token) :
    List.Sublist (keptBy (stepColon key t)) ('[' :: key ++ t.value) := by
  unfold stepColon
  split
  · rename_i ht
    simp [keptBy, kept, ht, Token.value]
  · simpa [kept] using stepBody_sublist key [] [] t

theorem stepKey_sublist (key : Text) (t : Token) :
    List.Sublist (keptBy (stepKey key t)) ('[' :: key ++ t.value) := by
  unfold stepKey
  split
  · simp [keptBy, kept]
  · exact stepColon_sublist key t

theorem stepCalls_sublist (key : Text) (calls : List RawCall) (t : Token) :
    List.Sublist (keptBy (stepCalls key calls t)) ((tagCalls key calls).kept ++ t.value) := by
  unfold stepCalls
  split <;> simp [keptBy, kept, Piece.kept, Token.value, Mark.char]

theorem stepName_sublist (key : Text) (calls : List RawCall) (name : Text) (t : Token) :
    List.Sublist (keptBy (stepName key calls name t)) ((callName key calls name).kept ++ t.value) := by
  unfold stepName
  split
  · simp [keptBy, kept, Token.value, Mark.char]
  · simpa [kept, RawCall.kept] using stepCalls_sublist key (⟨name, []⟩ :: calls) t

/-- **One token adds at most its own text**, behind everything that was kept before. -/
theorem step_sublist (o : Open) (t : Token) :
    List.Sublist (keptBy (o.step t)) (o.kept ++ t.value) := by
  -- one case for each construct; where a step passes a token on, the lemma for that step serves
  cases o with
  | outside run =>
    show List.Sublist (keptBy (stepOutside run t)) _
    unfold stepOutside
    split <;> simp [keptBy, kept, Token.value, Mark.char]
  | action =>
    show List.Sublist (keptBy (stepAction t)) _
    unfold stepAction
    split
    · simp [keptBy, kept, Token.value]
    · exact stepKey_sublist [] _
  | actionKey key => exact stepKey_sublist key t
  | actionColon key => exact stepColon_sublist key t
  | actionPop key =>
    show List.Sublist (keptBy (stepPop key t)) _
    unfold stepPop
    split
    · simp [keptBy, kept, Piece.kept]
    · simpa [kept] using stepBody_sublist key [] popWord.reverse t
  | actionBody key values raw => exact stepBody_sublist key values raw t
  | tag =>
    show List.Sublist (keptBy (stepTag t)) _
    unfold stepTag
    split
    · simp [keptBy, kept, Token.value]
    · simpa [kept] using stepCalls_sublist [] [] t
  | tagCalls key calls => exact stepCalls_sublist key calls t
  | callPeriod key calls =>
    show List.Sublist (keptBy (stepPeriod key calls t)) _
    unfold stepPeriod
    split
    · simp [keptBy, kept, Token.value]
    · simpa [kept] using stepName_sublist key calls [] t
  | callName key calls name => exact stepName_sublist key calls name t
  | callParams key calls name params raw =>
    show List.Sublist (keptBy (stepParams key calls name params raw t)) _
    unfold stepParams
    split <;> simp [keptBy, kept, RawCall.kept, Token.value, Mark.char]

theorem finish_sublist (o : Open) : List.Sublist (o.finish.flatMap Piece.kept) o.kept := by
  cases o <;> simp [finish, kept, Piece.kept, RawCall.kept]

/-! ### All tokens -/

/-- By induction on the tokens, from what one of them keeps. -/
theorem run_sublist (o : Open) (ts : List Token) :
    List.Sublist ((o.run ts).flatMap Piece.kept) (o.kept ++ ts.flatMap Token.value) := by
  induction ts generalizing o with
  | nil => simpa [run] using finish_sublist o
  | cons t ts ih =>
    have hrest : List.Sublist ((o.step t).2.flatMap Piece.kept ++
        ((o.step t).1.run ts).flatMap Piece.kept) (keptBy (o.step t) ++ ts.flatMap Token.value) := by
      rw [keptBy, List.append_assoc]
      exact (ih (o.step t).1).append_left _
    rw [run, List.flatMap_append, List.flatMap_cons, ← List.append_assoc]
    exact hrest.trans ((step_sublist o t).append_right _)

end Open

/-- **An outline keeps a part of its text in order**, and no backslash that escapes. -/
theorem outline_sublist_unescaped (s : Text) :
    List.Sublist ((outline s).flatMap Piece.kept) (Text.unescaped s) := by
  have h := Open.run_sublist (.outside []) (Token.scan s)
  rwa [Token.flatMap_value_scan] at h

theorem outline_sublist (s : Text) : List.Sublist ((outline s).flatMap Piece.kept) s :=
  (outline_sublist_unescaped s).trans (Text.unescaped_sublist s)

/-! ### Lengths -/

theorem Text.length_le_listed {t : Text} {texts : List Text} (h : t ∈ texts) :
    t.length ≤ (listed texts).length :=
  ((List.sublist_flatten_of_mem h).trans (flatten_sublist_listed texts)).length_le

theorem Piece.length_lt_of_mem_raws {p : Piece} {r : Text} (h : r ∈ p.raws) :
    r.length < p.kept.length := by
  cases p with
  | literal run => simp [raws] at h
  | push key values =>
    -- the key's mark stands in front of the values and makes the piece longer
    have hr : r.length ≤ (Text.listed values).length := Text.length_le_listed h
    rw [kept, List.length_append, List.length_cons]
    omega
  | pop key => simp [raws] at h
  | tag key calls =>
    obtain ⟨c, hc, hr⟩ := List.mem_flatMap.1 h
    have hp : r.length ≤ (Text.listed c.params).length := Text.length_le_listed hr
    have hk : c.kept.length ≤ (calls.flatMap RawCall.kept).length :=
      (List.sublist_flatten_of_mem (List.mem_map_of_mem hc)).length_le
    rw [RawCall.kept, if_neg (List.ne_nil_of_mem hr), List.length_append, List.length_cons,
      List.length_cons] at hk
    rw [kept, List.length_append, List.length_cons]
    omega

/-- **Every raw text inside a piece is shorter than the text around it.** -/
theorem length_lt_of_mem_outline {s r : Text} {p : Piece} (hp : p ∈ outline s) (hr : r ∈ p.raws) :
    r.length < s.length := by
  have hkept : p.kept.length ≤ ((outline s).flatMap Piece.kept).length :=
    (List.sublist_flatten_of_mem (List.mem_map_of_mem hp)).length_le
  have hraw := Piece.length_lt_of_mem_raws hr
  have houtline := (outline_sublist s).length_le
  omega

/-! ### Reading by outline -/

/-- The tree of a piece depends on its reader only at the raw texts of the piece. -/
theorem Piece.toTree_congr {f g : Text → Tree} {p : Piece} (h : ∀ r ∈ p.raws, f r = g r) :
    p.toTree f = p.toTree g := by
  cases p with
  | literal run => rfl
  | push key values =>
    have hv : values.map f = values.map g := List.map_congr_left h
    rw [toTree, toTree, hv]
  | pop key => rfl
  | tag key calls =>
    have hc : ∀ c ∈ calls, RawCall.toCall f c = RawCall.toCall g c := by
      intro c hc
      have hp : c.params.map f = c.params.map g :=
        List.map_congr_left fun r hr => h r (List.mem_flatMap.2 ⟨c, hc, hr⟩)
      rw [RawCall.toCall, RawCall.toCall, hp]
    rw [toTree, toTree, List.map_congr_left hc]

namespace Tree

/-- Every depth is enough that is no less than the length of the text. -/
theorem parseWithin_congr : ∀ {m n : Nat} {s : Text}, s.length ≤ m → s.length ≤ n →
    parseWithin m s = parseWithin n s
  | 0, 0, _, _, _ => rfl
  | 0, n + 1, [], _, _ => rfl
  | m + 1, 0, [], _, _ => rfl
  | m + 1, n + 1, s, hm, hn => by
    rw [parseWithin, parseWithin]
    congr 1
    refine List.map_congr_left fun p hp => Piece.toTree_congr fun r hr => ?_
    have hlt := length_lt_of_mem_outline hp hr
    exact parseWithin_congr (by omega) (by omega)

/-- **A text is read off its outline**, and so are the raw texts in it. -/
theorem parse_eq (s : Text) : parse s = ofItems ((outline s).map (Piece.toTree parse)) := by
  rw [parse, parseWithin_congr (Nat.le_refl _) (Nat.le_succ s.length), parseWithin]
  congr 1
  refine List.map_congr_left fun p hp => Piece.toTree_congr fun r hr => ?_
  have hlt := length_lt_of_mem_outline hp hr
  exact parseWithin_congr (by omega) (Nat.le_refl _)

end Tree

end TextGrammar
