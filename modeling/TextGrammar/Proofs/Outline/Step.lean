import TextGrammar.Outline.Build
import TextGrammar.Token.Scan
import TextGrammar.Tree.Document

/-!
# TextGrammar.Proofs.Outline.Step — what one token leads to

Reading one token either completes nothing, or ends plain text because a construct begins, or completes
a construct and leads outside (`Open.Leads`).  In each case the names that were read are free of
backslashes.  That is all that proofs about whole outlines need to know of a step (`Open.leads_step`).
-/

namespace TextGrammar

namespace Piece

def isLiteral : Piece → Bool
  | literal _ => true
  | _ => false

/-- The names in the piece are free of backslashes, and text is not empty. -/
def Named : Piece → Prop
  | literal run => run ≠ []
  | push key _ => Bare key
  | pop key => Bare key
  | tag key calls => Bare key ∧ ∀ c ∈ calls, Bare c.name

end Piece

namespace Open

def isOutside : Open → Bool
  | outside _ => true
  | _ => false

/-- The names that have been read are free of backslashes. -/
def Named : Open → Prop
  | outside _ | action | tag => True
  | actionKey key | actionColon key | actionPop key | actionBody key _ _ => Bare key
  | tagCalls key calls | callPeriod key calls => Bare key ∧ ∀ c ∈ calls, Bare c.name
  | callName key calls name | callParams key calls name _ _ =>
    (Bare key ∧ ∀ c ∈ calls, Bare c.name) ∧ Bare name

/-- What one token can lead to; `out` says whether no construct was open in front of it. -/
inductive Leads (out : Bool) : Open × List Piece → Prop
  | stay {o : Open} (named : o.Named) (inside : out = false → o.isOutside = false) : Leads out (o, [])
  | start {run : Text} {o : Open} (text : run ≠ []) (named : o.Named) (opened : o.isOutside = false)
    (was_out : out = true) : Leads out (o, [.literal run])
  | complete {p : Piece} (named : p.Named) (closed : p.isLiteral = false) :
    Leads out (outside [], [p])

theorem bare_nil : Bare [] := List.not_mem_nil

/-! ### Actions -/

theorem leads_stepBody {key : Text} (hkey : Bare key) (values : List Text) (raw : Text) (t : Token) :
    Leads false (stepBody key values raw t) := by
  unfold stepBody
  split
  · exact .stay hkey fun _ => rfl
  · exact .complete hkey rfl
  · exact .stay hkey fun _ => rfl

theorem leads_stepPop {key : Text} (hkey : Bare key) (t : Token) : Leads false (stepPop key t) := by
  unfold stepPop
  split
  · exact .complete hkey rfl
  · exact leads_stepBody hkey [] _ t

theorem leads_stepColon {key : Text} (hkey : Bare key) (t : Token) :
    Leads false (stepColon key t) := by
  unfold stepColon
  split
  · exact .stay hkey fun _ => rfl
  · exact leads_stepBody hkey [] [] t

theorem leads_stepKey {key : Text} (hkey : Bare key) (t : Token) : Leads false (stepKey key t) := by
  unfold stepKey
  split
  · exact .stay hkey fun _ => rfl
  · exact leads_stepColon hkey t

theorem leads_stepAction {t : Token} (ht : t.WellFormed) : Leads false (stepAction t) := by
  unfold stepAction
  split
  · exact .stay ht.2 fun _ => rfl
  · exact leads_stepKey bare_nil t

/-! ### Tags -/

section

variable {key : Text} {calls : List RawCall}

theorem named_complete {c : RawCall} (hc : Bare c.name) (h : ∀ c ∈ calls, Bare c.name) :
    ∀ d ∈ c :: calls, Bare d.name :=
  List.forall_mem_cons.2 ⟨hc, h⟩

theorem leads_stepCalls (h : Bare key ∧ ∀ c ∈ calls, Bare c.name) (t : Token) :
    Leads false (stepCalls key calls t) := by
  unfold stepCalls
  split
  · have hcalls : ∀ c ∈ calls.reverse, Bare c.name := fun c hc => h.2 c (List.mem_reverse.1 hc)
    exact .complete ⟨h.1, hcalls⟩ rfl
  · exact .stay h fun _ => rfl
  · exact .stay h fun _ => rfl

theorem leads_stepTag {t : Token} (ht : t.WellFormed) : Leads false (stepTag t) := by
  have hnone : ∀ c ∈ ([] : List RawCall), Bare c.name := by simp
  unfold stepTag
  split
  · exact .stay ⟨ht.2, hnone⟩ fun _ => rfl
  · exact leads_stepCalls ⟨bare_nil, hnone⟩ t

theorem leads_stepName (h : Bare key ∧ ∀ c ∈ calls, Bare c.name) {name : Text} (hname : Bare name)
    (t : Token) : Leads false (stepName key calls name t) := by
  unfold stepName
  split
  · exact .stay ⟨h, hname⟩ fun _ => rfl
  · exact leads_stepCalls ⟨h.1, named_complete hname h.2⟩ t

theorem leads_stepPeriod (h : Bare key ∧ ∀ c ∈ calls, Bare c.name) {t : Token}
    (ht : t.WellFormed) : Leads false (stepPeriod key calls t) := by
  unfold stepPeriod
  split
  · exact .stay ⟨h, ht.2⟩ fun _ => rfl
  · exact leads_stepName h bare_nil t

theorem leads_stepParams (h : Bare key ∧ ∀ c ∈ calls, Bare c.name) {name : Text}
    (hname : Bare name) (params : List Text) (raw : Text) (t : Token) :
    Leads false (stepParams key calls name params raw t) := by
  unfold stepParams
  split
  · exact .stay ⟨h, hname⟩ fun _ => rfl
  · exact .stay ⟨h.1, named_complete hname h.2⟩ fun _ => rfl
  · exact .stay ⟨h, hname⟩ fun _ => rfl

end

/-! ### Any token -/

theorem leads_stepOutside (run : Text) (t : Token) : Leads true (stepOutside run t) := by
  have hflush : ∀ o : Open, o.Named → o.isOutside = false → Leads true (o, flush run) := by
    intro o hnamed hopen
    cases run with
    | nil => exact .stay hnamed fun _ => hopen
    | cons c run => exact .start (by simp) hnamed hopen rfl
  unfold stepOutside
  split
  · exact hflush action trivial rfl
  · exact hflush tag trivial rfl
  · exact .stay trivial nofun

/-- **One token leads to one of three things**, whatever is open in front of it. -/
theorem leads_step {o : Open} (ho : o.Named) {t : Token} (ht : t.WellFormed) :
    Leads o.isOutside (o.step t) := by
  cases o with
  | outside run => exact leads_stepOutside run t
  | action => exact leads_stepAction ht
  | actionKey key => exact leads_stepKey ho t
  | actionColon key => exact leads_stepColon ho t
  | actionPop key => exact leads_stepPop ho t
  | actionBody key values raw => exact leads_stepBody ho values raw t
  | tag => exact leads_stepTag ht
  | tagCalls key calls => exact leads_stepCalls ho t
  | callPeriod key calls => exact leads_stepPeriod ho ht
  | callName key calls name => exact leads_stepName ho.1 ho.2 t
  | callParams key calls name params raw => exact leads_stepParams ho.1 ho.2 params raw t

/-! ### The end of the text -/

theorem named_finish {o : Open} (ho : o.Named) : ∀ p ∈ o.finish, p.Named := by
  have hrev : ∀ {calls : List RawCall}, (∀ c ∈ calls, Bare c.name) →
      ∀ c ∈ calls.reverse, Bare c.name := fun h c hc => h c (List.mem_reverse.1 hc)
  cases o with
  | outside run => cases run <;> simp [finish, flush, Piece.Named]
  | action => exact List.forall_mem_singleton.2 bare_nil
  | actionKey | actionColon | actionPop | actionBody => exact List.forall_mem_singleton.2 ho
  | tag => exact List.forall_mem_singleton.2 ⟨bare_nil, by simp⟩
  | tagCalls => exact List.forall_mem_singleton.2 ⟨ho.1, hrev ho.2⟩
  | callPeriod =>
    exact List.forall_mem_singleton.2 ⟨ho.1, hrev (named_complete bare_nil ho.2)⟩
  | callName | callParams =>
    exact List.forall_mem_singleton.2 ⟨ho.1.1, hrev (named_complete ho.2 ho.1.2)⟩

/-- The end of the text completes one piece at most, and it is no text where a construct is open. -/
theorem finish_cases (o : Open) :
    o.finish = [] ∨ ∃ p, o.finish = [p] ∧ (o.isOutside = false → p.isLiteral = false) := by
  cases o with
  | outside run =>
    cases run with
    | nil => exact .inl rfl
    | cons c run => exact .inr ⟨_, rfl, nofun⟩
  | _ => exact .inr ⟨_, rfl, fun _ => rfl⟩

/-! ### All tokens -/

theorem named_run {ts : List Token} (hts : ∀ t ∈ ts, t.WellFormed) {o : Open} (ho : o.Named) :
    ∀ p ∈ o.run ts, p.Named := by
  induction ts generalizing o with
  | nil => exact named_finish ho
  | cons t ts ih =>
    obtain ⟨ht, hts⟩ := List.forall_mem_cons.1 hts
    have hstep := leads_step ho ht
    rw [run]
    generalize o.step t = r at hstep ⊢
    cases hstep with
    | stay named => exact ih hts named
    | start text named => exact List.forall_mem_cons.2 ⟨text, ih hts named⟩
    | complete named => exact List.forall_mem_cons.2 ⟨named, ih hts trivial⟩

/-- **Where a construct is open, a piece is completed, and the next one is no text.** -/
theorem exists_run_eq_cons {ts : List Token} (hts : ∀ t ∈ ts, t.WellFormed) {o : Open}
    (ho : o.Named) (hin : o.isOutside = false) :
    ∃ p ps, o.run ts = p :: ps ∧ p.isLiteral = false := by
  -- on the tokens: while the construct stays open nothing is completed, and the end closes it
  induction ts generalizing o with
  | nil =>
    rw [run]
    cases o with
    | outside => cases hin
    | _ => exact ⟨_, _, rfl, rfl⟩
  | cons t ts ih =>
    obtain ⟨ht, hts⟩ := List.forall_mem_cons.1 hts
    have hstep := leads_step ho ht
    rw [run]
    generalize o.step t = r at hstep ⊢
    cases hstep with
    | stay named inside => exact ih hts named (inside hin)
    | start _ _ _ was_out =>
      rw [was_out] at hin
      cases hin
    | @complete p named closed => exact ⟨p, _, rfl, closed⟩

theorem not_literal_of_mem_head?_run {ts : List Token} (hts : ∀ t ∈ ts, t.WellFormed) {o : Open}
    (ho : o.Named) (hin : o.isOutside = false) : ∀ p ∈ (o.run ts).head?, p.isLiteral = false := by
  obtain ⟨p, ps, hrun, hp⟩ := exists_run_eq_cons hts ho hin
  simpa [hrun] using hp

end Open

end TextGrammar
