import Mathlib.Data.List.Infix
import TextGrammar.Modifier.English

/-!
# TextGrammar.Proofs.Modifier.Substitute — which occurrences are replaced

Occurrences of a text may overlap, so they cannot all be replaced.  A text is cut at the leftmost
occurrence, the rest behind it again, and so on; `Text.Parts` says this of the parts alone.  A text has
one cut (`Text.Parts.unique`), for the first occurrence is where it is.  `Text.substitute` walks from one
first occurrence to the next (`Text.substitute_of_onlyAtEnd`), so it joins the parts by the replacement.
-/

namespace TextGrammar

namespace Text

variable {search value p q rest : Text} {parts : List Text}

/-! ### The first occurrence -/

/-- What is searched for does not occur in the text, unless at its end. -/
def OnlyAtEnd (search t : Text) : Prop := ∀ before after, t = before ++ search ++ after → after = []

theorem OnlyAtEnd.of_cons {c : Char} {t : Text} (h : OnlyAtEnd search (c :: t)) :
    OnlyAtEnd search t := by
  rintro before after rfl
  exact h (c :: before) after rfl

/-- It is enough to look in front of the last character. -/
theorem onlyAtEnd_iff (hsearch : search ≠ []) {t : Text} :
    OnlyAtEnd search t ↔ ¬ search <:+: t.dropLast := by
  constructor
  · rintro h ⟨before, after, hba⟩
    have ht : t ≠ [] := by
      rintro rfl
      simp_all
    have hafter := h before (after ++ [t.getLast ht])
    rw [← List.append_assoc, hba, List.dropLast_append_getLast] at hafter
    simpa using hafter rfl
  · rintro h before after rfl
    by_contra hafter
    rw [List.dropLast_append_of_ne_nil hafter] at h
    exact h ⟨before, after.dropLast, rfl⟩

/-- Nothing that ends before the first occurrence begins an occurrence. -/
theorem OnlyAtEnd.not_isPrefix {c : Char} (h : OnlyAtEnd search (c :: p ++ search)) (rest : Text) :
    ¬ search <+: c :: p ++ search ++ rest := by
  intro hprefix
  have hlength : (c :: p ++ search).length = search.length + p.length + 1 := by
    rw [List.length_append, List.length_cons]
    omega
  obtain ⟨after, hafter⟩ :=
    List.prefix_of_prefix_length_le hprefix (List.prefix_append _ rest) (by omega)
  obtain rfl : after = [] := h [] after hafter.symm
  rw [← hafter, List.append_nil] at hlength
  omega

/-- **What occurs has a first occurrence.** -/
theorem exists_first_of_isInfix (h : search <:+: value) :
    ∃ p rest, value = p ++ search ++ rest ∧ OnlyAtEnd search (p ++ search) := by
  induction value with
  | nil =>
    obtain rfl := List.infix_nil.1 h
    exact ⟨[], [], rfl, by rintro before after h; simp_all⟩
  | cons c value ih =>
    -- it stands at the front, where nothing is before it, or its first place is in the rest
    by_cases hprefix : search <+: c :: value
    · obtain ⟨rest, hrest⟩ := hprefix
      refine ⟨[], rest, by simpa using hrest.symm, fun before after hba => ?_⟩
      have := congrArg List.length hba
      simp only [List.nil_append, List.length_append] at this
      exact List.eq_nil_of_length_eq_zero (by omega)
    · obtain ⟨p, rest, rfl, hfirst⟩ := ih ((List.infix_cons_iff.1 h).resolve_left hprefix)
      refine ⟨c :: p, rest, rfl, fun before after hba => ?_⟩
      cases before with
      | nil =>
        -- an occurrence at the front would be a prefix after all
        refine absurd ⟨after ++ rest, ?_⟩ hprefix
        rw [← List.append_assoc]
        exact (congrArg (· ++ rest) hba).symm
      | cons d before =>
        obtain ⟨-, hba⟩ := List.cons.inj hba
        exact hfirst before after hba

/-- **The first occurrence is where it is**: what is in front of it, and behind it. -/
theorem OnlyAtEnd.unique {rest' : Text} (hp : OnlyAtEnd search (p ++ search))
    (hq : OnlyAtEnd search (q ++ search)) (h : p ++ search ++ rest = q ++ search ++ rest') :
    p = q ∧ rest = rest' := by
  -- the shorter of the two, with what is searched for, is the beginning of the other
  have hle {p q rest rest' : Text} (hq : OnlyAtEnd search (q ++ search))
      (h : p ++ search ++ rest = q ++ search ++ rest') (hlength : p.length ≤ q.length) : p = q := by
    have hprefix : p ++ search <+: q ++ search := by
      refine List.prefix_of_prefix_length_le ⟨rest, h⟩ (List.prefix_append _ rest') ?_
      rw [List.length_append, List.length_append]
      omega
    obtain ⟨after, hafter⟩ := hprefix
    obtain rfl := hq p after hafter.symm
    rw [List.append_nil] at hafter
    exact List.append_cancel_right hafter
  have hpq : p = q := by
    rcases Nat.le_total p.length q.length with hlength | hlength
    · exact hle hq h hlength
    · exact (hle hp h.symm hlength).symm
  subst hpq
  exact ⟨rfl, List.append_cancel_left h⟩

/-! ### Cutting a text at the occurrences -/

/-- The parts between the leftmost occurrences that do not overlap: each but the last one ends where the
next occurrence begins, and there is none in the last one. -/
structure Parts (search value : Text) (parts : List Text) : Prop where
  joined : value = List.intercalate search parts
  inner : ∀ p ∈ parts.dropLast, OnlyAtEnd search (p ++ search)
  last : ∃ p, parts.getLast? = some p ∧ ¬ search <:+: p

theorem not_parts_nil : ¬ Parts search value [] := by
  rintro ⟨-, -, p, hp, -⟩
  cases hp

theorem parts_singleton_iff : Parts search value [p] ↔ value = p ∧ ¬ search <:+: p := by
  constructor
  · rintro ⟨hjoined, -, q, hq, hlast⟩
    obtain rfl := Option.some.inj hq
    exact ⟨by simpa using hjoined, hlast⟩
  · rintro ⟨rfl, hlast⟩
    exact ⟨by simp, by simp, value, rfl, hlast⟩

theorem parts_cons_cons_iff : Parts search value (p :: q :: parts) ↔
    ∃ rest, value = p ++ search ++ rest ∧ OnlyAtEnd search (p ++ search) ∧
      Parts search rest (q :: parts) := by
  constructor
  · rintro ⟨rfl, hinner, hlast⟩
    rw [List.dropLast_cons_cons, List.forall_mem_cons] at hinner
    refine ⟨List.intercalate search (q :: parts), by simp [List.intercalate_cons_cons], hinner.1,
      rfl, hinner.2, ?_⟩
    rwa [List.getLast?_cons_cons] at hlast
  · rintro ⟨_, rfl, hfirst, rfl, hinner, hlast⟩
    refine ⟨by simp [List.intercalate_cons_cons], ?_, ?_⟩
    · rw [List.dropLast_cons_cons, List.forall_mem_cons]
      exact ⟨hfirst, hinner⟩
    · rwa [List.getLast?_cons_cons]

/-- **A text is cut in one way**, by induction on the parts: both cuts have the first occurrence, and the
rests behind it are cut in one way. -/
theorem Parts.unique {others : List Text} (h : Parts search value parts)
    (h' : Parts search value others) : others = parts := by
  induction parts generalizing value others with
  | nil => exact absurd h not_parts_nil
  | cons p parts ih =>
    cases others with
    | nil => exact absurd h' not_parts_nil
    | cons q others =>
      cases parts with
      | nil =>
        obtain ⟨rfl, hp⟩ := parts_singleton_iff.1 h
        cases others with
        | nil => rw [(parts_singleton_iff.1 h').1]
        | cons q' others =>
          obtain ⟨rest, rfl, -⟩ := parts_cons_cons_iff.1 h'
          -- a last part has no occurrence in it, but the other cut begins with one
          exact absurd ⟨q, rest, rfl⟩ hp
      | cons p' parts =>
        obtain ⟨rest, rfl, hp, hparts⟩ := parts_cons_cons_iff.1 h
        cases others with
        | nil =>
          obtain ⟨rfl, hq⟩ := parts_singleton_iff.1 h'
          exact absurd ⟨p, rest, rfl⟩ hq
        | cons q' others =>
          obtain ⟨rest', heq, hq, hothers⟩ := parts_cons_cons_iff.1 h'
          obtain ⟨rfl, rfl⟩ := hp.unique hq heq
          rw [ih hparts hothers]

/-! ### Replacing the occurrences -/

variable (replacement : Text)

theorem substituteAfter_append {skip : Text} {n : Nat} (hn : n = skip.length) (rest : Text) :
    substituteAfter search replacement n (skip ++ rest) = substituteAfter search replacement 0 rest := by
  subst hn
  induction skip with
  | nil => rfl
  | cons c skip ih => exact ih

theorem substitute_search_append (hsearch : search ≠ []) (rest : Text) :
    substitute search replacement (search ++ rest) =
      replacement ++ substitute search replacement rest := by
  cases search with
  | nil => exact absurd rfl hsearch
  | cons c search =>
    have hprefix : (c :: search).isPrefixOf (c :: (search ++ rest)) = true :=
      List.isPrefixOf_iff_prefix.2 ⟨rest, rfl⟩
    show substituteAfter (c :: search) replacement 0 (c :: (search ++ rest)) = _
    rw [substituteAfter, if_pos hprefix]
    exact congrArg (replacement ++ ·) (substituteAfter_append replacement rfl rest)

theorem substitute_cons {c : Char} (h : ¬ search <+: c :: value) :
    substitute search replacement (c :: value) = c :: substitute search replacement value := by
  show substituteAfter search replacement 0 (c :: value) = _
  rw [substituteAfter, if_neg fun hprefix => h (List.isPrefixOf_iff_prefix.1 hprefix)]
  rfl

/-- **The first occurrence is replaced**, and what is behind it goes on to be searched. -/
theorem substitute_of_onlyAtEnd (hsearch : search ≠ []) (h : OnlyAtEnd search (p ++ search))
    (rest : Text) :
    substitute search replacement (p ++ search ++ rest) =
      p ++ replacement ++ substitute search replacement rest := by
  induction p with
  | nil => exact substitute_search_append replacement hsearch rest
  | cons c p ih =>
    have hskip := substitute_cons replacement (h.not_isPrefix rest)
    exact hskip.trans (congrArg (c :: ·) (ih h.of_cons))

theorem substitute_of_not_isInfix (h : ¬ search <:+: value) :
    substitute search replacement value = value := by
  induction value with
  | nil => rfl
  | cons c value ih =>
    rw [List.infix_cons_iff, not_or] at h
    rw [substitute_cons replacement h.1, ih h.2]

/-- The parts of a text, joined by the replacement. -/
theorem Parts.substitute_eq (hsearch : search ≠ []) (h : Parts search value parts) :
    substitute search replacement value = List.intercalate replacement parts := by
  induction parts generalizing value with
  | nil => exact absurd h not_parts_nil
  | cons p parts ih =>
    cases parts with
    | nil =>
      obtain ⟨rfl, hp⟩ := parts_singleton_iff.1 h
      rw [substitute_of_not_isInfix replacement hp, List.intercalate_singleton]
    | cons q parts =>
      obtain ⟨rest, rfl, hp, hparts⟩ := parts_cons_cons_iff.1 h
      rw [substitute_of_onlyAtEnd replacement hsearch hp, ih hparts, List.intercalate_cons_cons]

/-- **Every text can be cut**, by induction on what is behind the first occurrence. -/
theorem exists_parts (hsearch : search ≠ []) (value : Text) : ∃ parts, Parts search value parts := by
  by_cases h : search <:+: value
  · obtain ⟨p, rest, rfl, hfirst⟩ := exists_first_of_isInfix h
    obtain ⟨parts, hparts⟩ := exists_parts hsearch rest
    cases parts with
    | nil => exact absurd hparts not_parts_nil
    | cons q parts => exact ⟨p :: q :: parts, parts_cons_cons_iff.2 ⟨rest, rfl, hfirst, hparts⟩⟩
  · exact ⟨[value], parts_singleton_iff.2 ⟨rfl, h⟩⟩
termination_by value.length
decreasing_by
  have := List.length_pos_of_ne_nil hsearch
  subst_vars
  simp only [List.length_append]
  omega

end Text

namespace English

/-- **Replacement takes the leftmost occurrences that do not overlap.**  For a search that is not empty
there is one way to cut the value at them, and the result is the parts with the replacement in between;
what the replacement is does not count, nor what other parameters follow.  Without two parameters, or with
nothing to search for, the value stays as it is. -/
theorem replace_leftmost (value : Text) :
    (∀ search, search ≠ [] → ∃ parts, Text.Parts search value parts ∧
      (∀ others, Text.Parts search value others → others = parts) ∧
      ∀ replacement more,
        replace value (search :: replacement :: more) = List.intercalate replacement parts) ∧
    (∀ params : List Text, params.length < 2 → replace value params = value) ∧
    ∀ params : List Text, params.head? = some [] → replace value params = value := by
  refine ⟨fun search hsearch => ?_, fun params hparams => ?_, fun params hparams => ?_⟩
  · obtain ⟨parts, hparts⟩ := Text.exists_parts hsearch value
    refine ⟨parts, hparts, fun others => hparts.unique, fun replacement more => ?_⟩
    rw [replace, if_neg (by simpa using hsearch)]
    exact hparts.substitute_eq replacement hsearch
  · match params, hparams with
    | [], _ => rfl
    | [_], _ => rfl
  · match params, hparams with
    | [_], _ => rfl
    | search :: replacement :: more, hparams =>
      obtain rfl := Option.some.inj hparams
      rfl

/-- Of three occurrences that overlap, two are replaced.  The replacement contains what is searched for, and
what is in front of it makes up another occurrence with it; these stay. -/
theorem replace_leftmost_overlapping :
    let value := "abababa-ab".toList
    let search := "aba".toList
    let parts : List Text := [[], ['b'], "-ab".toList]
    search ≠ [] ∧ Text.Parts search value parts ∧
      (∀ others, Text.Parts search value others → others = parts) ∧
      replace value [search, "abaa".toList, ['x']] = "abaababaa-ab".toList ∧
      replace value [search] = value ∧ replace value [[], ['x']] = value := by
  intro value search parts
  have hsearch : search ≠ [] := by decide
  have hparts : Text.Parts search value parts := by
    refine ⟨by decide, ?_, "-ab".toList, rfl, by decide⟩
    have honly : ∀ p ∈ parts.dropLast, ¬ search <:+: (p ++ search).dropLast := by decide
    exact fun p hp => (Text.onlyAtEnd_iff hsearch).2 (honly p hp)
  obtain ⟨hcut, hfew, hempty⟩ := replace_leftmost value
  obtain ⟨parts', -, hunique, hreplace⟩ := hcut search hsearch
  obtain rfl := hunique parts hparts
  refine ⟨hsearch, hparts, hunique, ?_, hfew [search] (by decide), hempty [[], ['x']] rfl⟩
  exact hreplace "abaa".toList [['x']]

end English

end TextGrammar
