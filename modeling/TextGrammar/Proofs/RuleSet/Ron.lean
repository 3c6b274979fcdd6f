import TextGrammar.Proofs.RuleSet.Json
import TextGrammar.RuleSet.Edit

/-!
# TextGrammar.Proofs.RuleSet.Ron — JSON that is read as RON

What is written for a rule set in JSON is also RON, as long as no character needs an escape that RON does not
have (`Ron.SharesEscape`).  A text leads the lexer from one mode to another (`Mode.Reads`), and a text that
begins and ends between lexemes leads the reading of a rule set on (`Reading.Leads`).  Both kinds of steps
compose, so what is written for a list, a rule, a member and an object each gets one lemma.
-/

namespace TextGrammar

namespace Ron

/-- The character stands for itself in both notations, or is escaped in the same way. -/
def SharesEscape (c : Char) : Prop := 0x20 ≤ c.toNat ∨ c = '\n' ∨ c = '\r' ∨ c = '\t'

instance (c : Char) : Decidable (SharesEscape c) :=
  inferInstanceAs (Decidable (0x20 ≤ c.toNat ∨ c = '\n' ∨ c = '\r' ∨ c = '\t'))

/-- All characters of the key and the texts of a member are such. -/
def SharesEscapes (member : Text × Rule) : Prop :=
  ∀ t ∈ member.1 :: member.2.alternatives, ∀ c ∈ t, SharesEscape c

/-! ### Lexemes -/

namespace Mode

/-- The text completes the lexemes and leads from one mode to another, whatever follows. -/
def Reads (mode : Mode) (s : Text) (ls : List Lexeme) (mode' : Mode) : Prop :=
  ∀ rest, lexemesFrom mode (s ++ rest) = (lexemesFrom mode' rest).map (ls ++ ·)

variable {mode mode' mode'' : Mode} {s t : Text} {ls ms : List Lexeme}

theorem Reads.of_step {c : Char} (h : mode.step c = some (mode', ls)) : mode.Reads [c] ls mode' := by
  intro rest
  show (mode.step c >>= fun p => _) = _
  rw [h]
  show (lexemesFrom mode' rest >>= fun others => some (ls ++ others)) = _
  cases lexemesFrom mode' rest <;> rfl

theorem Reads.nil (mode : Mode) : mode.Reads [] [] mode := by
  intro rest
  show lexemesFrom mode rest = (lexemesFrom mode rest).map id
  rw [Option.map_id_fun, id_eq]

theorem Reads.append (hs : mode.Reads s ls mode') (ht : mode'.Reads t ms mode'') :
    mode.Reads (s ++ t) (ls ++ ms) mode'' := by
  intro rest
  rw [List.append_assoc, hs, ht, Option.map_map]
  congr 1
  funext others
  exact (List.append_assoc ls ms others).symm

/-- What is written for a character is read as the character. -/
theorem reads_writeChar {c : Char} (h : SharesEscape c) (read : Text) :
    (string read).Reads (Json.writeChar c) [] (string (c :: read)) := by
  obtain ⟨e, hslash, he, hwrite⟩ | ⟨hnone, hlt, -⟩ | ⟨hquote, hbackslash, -, hwrite⟩ :=
    Json.writeChar_cases c
  · have hback : (string read).step '\\' = some (backslash read, []) := rfl
    have hletter : (backslash read).step e = some (string (c :: read), []) := by
      simp only [Json.letterEscapes, List.mem_cons, Prod.mk.injEq, List.not_mem_nil, or_false] at he
      -- a slash is never escaped, and the characters of `b` and `f` are not shared
      rcases he with ⟨rfl, rfl⟩ | ⟨rfl, rfl⟩ | ⟨rfl, -⟩ | ⟨-, rfl⟩ | ⟨-, rfl⟩ | ⟨rfl, rfl⟩ | ⟨rfl, rfl⟩ |
        ⟨rfl, rfl⟩
      · rfl
      · rfl
      · exact absurd rfl hslash
      · exact absurd h (by decide)
      · exact absurd h (by decide)
      · rfl
      · rfl
      · rfl
    rw [hwrite]
    exact Reads.append (.of_step hback) (.of_step hletter)
  · rcases h with hle | rfl | rfl | rfl
    · omega
    · exact absurd (by decide) (hnone 'n')
    · exact absurd (by decide) (hnone 'r')
    · exact absurd (by decide) (hnone 't')
  · rw [hwrite]
    refine .of_step ?_
    rw [step, if_neg hquote, if_neg hbackslash]

theorem reads_flatMap_writeChar {t : Text} (h : ∀ c ∈ t, SharesEscape c) (read : Text) :
    (string read).Reads (t.flatMap Json.writeChar) [] (string (t.reverse ++ read)) := by
  induction t generalizing read with
  | nil => exact .nil _
  | cons c t ih =>
    obtain ⟨hc, ht⟩ := List.forall_mem_cons.1 h
    rw [List.flatMap_cons, List.reverse_cons, List.append_assoc]
    exact (reads_writeChar hc read).append (ih ht (c :: read))

/-- What is written for a string is read as the string. -/
theorem reads_writeString {t : Text} (h : ∀ c ∈ t, SharesEscape c) :
    between.Reads (Json.writeString t) [.string t] between := by
  have hopen : between.Reads ['"'] [] (string []) := .of_step rfl
  have hclose : (string (t.reverse ++ [])).Reads ['"'] [.string t] between := by
    refine .of_step ?_
    rw [List.append_nil, step, if_pos rfl, List.reverse_reverse]
  exact (hopen.append (reads_flatMap_writeChar h [])).append hclose

end Mode

/-! ### The reading of a rule set -/

namespace Reading

/-- The text begins and ends between lexemes and leads the reading on. -/
def Leads (r : Reading) (s : Text) (r' : Reading) : Prop :=
  ∃ ls, Mode.between.Reads s ls .between ∧ ls.foldlM step r = some r'

variable {r r' r'' : Reading} {s t key : Text} {set : RuleSet}

theorem Leads.append (hs : r.Leads s r') (ht : r'.Leads t r'') : r.Leads (s ++ t) r'' := by
  obtain ⟨ls, hs, hls⟩ := hs
  obtain ⟨ms, ht, hms⟩ := ht
  refine ⟨ls ++ ms, hs.append ht, ?_⟩
  rw [List.foldlM_append, hls]
  exact hms

/-- One lexeme leads the reading on. -/
theorem Leads.lexeme {l : Lexeme} (hs : Mode.between.Reads s [l] .between) (h : r.step l = some r') :
    r.Leads s r' := by
  refine ⟨[l], hs, ?_⟩
  rw [List.foldlM_cons, h]
  rfl

theorem Leads.comma (h : r.step .comma = some r') : r.Leads [','] r' := .lexeme (.of_step rfl) h

/-- Texts with a comma between them lead the reading on as each of them does. -/
theorem leads_listed {α : Type} {write : α → Text} (due behind : List α → Reading)
    (hcomma : ∀ done, (behind done).step .comma = some (due done)) {as : List α} (hne : as ≠ [])
    (hwrite : ∀ a ∈ as, ∀ done, (due done).Leads (write a) (behind (done ++ [a]))) (done : List α) :
    (due done).Leads (Text.listed (as.map write)) (behind (done ++ as)) := by
  induction as generalizing done with
  | nil => exact absurd rfl hne
  | cons a as ih =>
    obtain ⟨ha, has⟩ := List.forall_mem_cons.1 hwrite
    cases as with
    | nil =>
      rw [List.map_singleton, Text.listed_singleton]
      exact ha done
    | cons b bs =>
      have hothers := ih (List.cons_ne_nil b bs) has (done ++ [a])
      rw [List.append_assoc, List.singleton_append] at hothers
      rw [List.map_cons, List.map_cons, Text.listed_cons_cons]
      exact (ha done).append (.append (.comma (hcomma (done ++ [a]))) hothers)

theorem leads_string (h : ∀ c ∈ t, SharesEscape c) (hr : r.step (.string t) = some r') :
    r.Leads (Json.writeString t) r' :=
  .lexeme (Mode.reads_writeString h) hr

/-- The items of a list, and its end. -/
theorem leads_sources {sources : List Text} (h : ∀ t ∈ sources, ∀ c ∈ t, SharesEscape c) :
    (item set key .square []).Leads (Text.listed (sources.map Json.writeString) ++ [']'])
      (valueEnd (set.insert key (.many sources))) := by
  have hclose : Mode.between.Reads [']'] [.closeBracket] .between := .of_step rfl
  cases sources with
  | nil => exact .lexeme hclose rfl
  | cons t ts =>
    -- the items are held last ones first
    let due (done : List Text) := item set key .square done.reverse
    let behind (done : List Text) := itemEnd set key .square done.reverse
    have hitem : ∀ u ∈ t :: ts, ∀ done, (due done).Leads (Json.writeString u) (behind (done ++ [u])) := by
      intro u hu done
      refine leads_string (h u hu) ?_
      show _ = some (itemEnd set key .square (done ++ [u]).reverse)
      rw [List.reverse_append]
      rfl
    have hitems := leads_listed due behind (fun _ => rfl) (List.cons_ne_nil t ts) hitem []
    refine hitems.append (.lexeme hclose ?_)
    show some (valueEnd (set.insert key (.many (t :: ts).reverse.reverse))) = _
    rw [List.reverse_reverse]

theorem leads_writeRule {rule : Rule} (h : ∀ t ∈ rule.alternatives, ∀ c ∈ t, SharesEscape c) :
    (value set key).Leads (Json.writeRule rule) (valueEnd (set.insert key rule)) := by
  cases rule with
  | one source => exact leads_string (h source List.mem_cons_self) rfl
  | many sources =>
    have hopen : (value set key).Leads ['['] (item set key .square []) := .lexeme (.of_step rfl) rfl
    rw [Json.writeRule, List.append_assoc]
    exact hopen.append (leads_sources h)

theorem leads_writeMember {member : Text × Rule} (h : SharesEscapes member) :
    (Reading.key set).Leads (Json.writeMember member.1 member.2)
      (valueEnd (set.insert member.1 member.2)) := by
  obtain ⟨hkey, hrule⟩ := List.forall_mem_cons.1 h
  have hcolon : (colon set member.1).Leads [':'] (value set member.1) := .lexeme (.of_step rfl) rfl
  exact ((leads_string hkey rfl).append hcolon).append (leads_writeRule hrule)

/-- The members of an object, and its end. -/
theorem leads_members {members : List (Text × Rule)} (h : ∀ member ∈ members, SharesEscapes member) :
    (Reading.key ∅).Leads
      (Text.listed (members.map fun member => Json.writeMember member.1 member.2) ++ ['}'])
      (complete (KeyMap.ofList members)) := by
  have hclose : Mode.between.Reads ['}'] [.closeBrace] .between := .of_step rfl
  by_cases hne : members = []
  · subst hne
    exact .lexeme hclose rfl
  -- with some members done a key is due, or what follows the last of them
  · let due (done : List (Text × Rule)) := Reading.key (KeyMap.ofList done)
    let behind (done : List (Text × Rule)) := valueEnd (KeyMap.ofList done)
    have hmember : ∀ member ∈ members, ∀ done,
        (due done).Leads (Json.writeMember member.1 member.2) (behind (done ++ [member])) := by
      intro member hm done
      show (Reading.key (KeyMap.ofList done)).Leads _ (valueEnd (KeyMap.ofList (done ++ [member])))
      rw [KeyMap.ofList_concat]
      exact leads_writeMember (h member hm)
    have hmembers := leads_listed due behind (fun _ => rfl) hne hmember []
    exact hmembers.append (.lexeme hclose rfl)

end Reading

end Ron

namespace RuleSet

/-- What is written for a rule set leads from the start to the rule set. -/
theorem leads_writeJson {rules : RuleSet} (h : ∀ member ∈ rules.entries, Ron.SharesEscapes member) :
    Ron.Reading.start.Leads rules.writeJson (.complete rules) := by
  have hopen : Ron.Reading.start.Leads ['{'] (.key ∅) := .lexeme (.of_step rfl) rfl
  have hmembers := Ron.Reading.leads_members h
  rw [rules.ofList_entries] at hmembers
  rw [writeJson, List.append_assoc]
  exact hopen.append hmembers

theorem readRon_of_leads {s : Text} {rules : RuleSet} (h : Ron.Reading.start.Leads s (.complete rules)) :
    readRon s = some rules := by
  obtain ⟨ls, hs, hls⟩ := h
  have hlexemes : Ron.lexemes s = some ls := by
    have hend := hs []
    rw [List.append_nil] at hend
    rw [Ron.lexemes, hend]
    show some (ls ++ []) = some ls
    rw [List.append_nil]
  show (Ron.lexemes s >>= fun lexemes => lexemes.foldlM Ron.Reading.step .start >>= Ron.Reading.result?) = _
  rw [hlexemes]
  show (ls.foldlM Ron.Reading.step .start >>= Ron.Reading.result?) = _
  rw [hls]
  rfl

/-- **JSON and RON agree** on what is written for a rule set without control characters other than line ends
and tabs: both read the rule set back, and so does loading it from a file of either format. -/
theorem formats_agree (rules : RuleSet)
    (h : ∀ member ∈ rules.entries, Ron.SharesEscapes member) :
    readJson rules.writeJson = .ok rules ∧ readRon rules.writeJson = some rules ∧
      ∀ (files : Files) path format, Format.ofPath? path = some format →
        files path = .ok (encodeText rules.writeJson) → load files path = .ok rules := by
  have hjson : readJson rules.writeJson = .ok rules :=
    readJson_eq_ok_iff.2 ⟨rules.entries, spelled_writeJson rules, rules.ofList_entries.symm⟩
  have hron : readRon rules.writeJson = some rules := readRon_of_leads (leads_writeJson h)
  refine ⟨hjson, hron, fun files path format hformat hfile => ?_⟩
  rw [load_of_ok hformat hfile, decodeText_encodeText]
  show format.read rules.writeJson = .ok rules
  cases format with
  | json =>
    rw [Format.read, hjson]
    rfl
  | ron => rw [Format.read, hron]

/-- Quotes, backslashes, a slash and line ends in keys and texts, a character beyond the first plane, and lists
of no, one and two texts. -/
theorem formats_agree_shapes :
    let rules : RuleSet := KeyMap.ofList
      [([], .many []), ("k\\\"".toList, .one "\n/😀".toList), (['l'], .many [[]]),
        (['m'], .many ["'\t".toList, "\r\x7f".toList])]
    let files : Files := fun path => if path.take 2 = "r.".toList then .ok (encodeText rules.writeJson)
      else .error .notFound
    readRon rules.writeJson = some rules ∧ load files "r.json".toList = .ok rules ∧
      load files "r.ron".toList = .ok rules := by
  intro rules files
  have hall : (rules.entries.all fun member => (member.1 :: member.2.alternatives).all fun t =>
      t.all fun c => decide (Ron.SharesEscape c)) = true := by decide
  have hshares : ∀ member ∈ rules.entries, Ron.SharesEscapes member := by
    intro member hm t ht c hc
    have htexts := List.all_eq_true.1 hall member hm
    exact of_decide_eq_true (List.all_eq_true.1 (List.all_eq_true.1 htexts t ht) c hc)
  obtain ⟨-, hron, hload⟩ := formats_agree rules hshares
  exact ⟨hron, hload files _ .json rfl (if_pos rfl), hload files _ .ron rfl (if_pos rfl)⟩

end RuleSet

end TextGrammar
