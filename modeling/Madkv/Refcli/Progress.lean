import Mathlib.Data.Prod.Lex
import Madkv.Refcli.Session

/-!
Every call to the reference client is answered.

* `advances_acc`: the driver and the process cannot go on forever by steps other than
  rounds at the end of what they read, by the variant `workOf`.
* `EndInv`: why the driver has left its loop.
* `SessionInv.respond_of_atRest`: where only such rounds are left, the responses to all
  calls have been sent back.
* `internal_acc`: where every call has a response there are no such rounds.
-/

namespace Madkv

open Execution Words Runner Replies Refcli

namespace Runner

lemma Event.Internal.stays {e : Event} (h : e.Internal) : e.leaves = false := by
  cases e <;> first | exact h.elim | rfl

/-- How far the driver is from receiving the next call. -/
def Driver.work : Driver → ℕ
  | .writes _ => 4
  | .reads => 3
  | .sends _ => 2
  | .receives => 1
  | .ended _ => 0

end Runner

/-- How far the reference client is from reading the next line. -/
def Refcli.Process.work : Process → ℕ
  | .writes pending _ => pending.length + 2
  | .reads _ => 1
  | .exited => 0

/-- The variant of the steps of the driver and the process, the first parts weighing
most. -/
def workOf (c : Runner.ClientProc Process) : ℕ × ℕ × ℕ × ℕ :=
  (c.callQueue.length, c.driver.work, c.stdin.length, c.process.work)

/-- Less work to do. -/
def LessWork : ℕ × ℕ × ℕ × ℕ → ℕ × ℕ × ℕ × ℕ → Prop :=
  Prod.Lex (· < ·) (Prod.Lex (· < ·) (Prod.Lex (· < ·) (· < ·)))

lemma lessWork_wf : WellFounded LessWork :=
  WellFounded.prod_lex Nat.lt_wfRel.wf
    (WellFounded.prod_lex Nat.lt_wfRel.wf (WellFounded.prod_lex Nat.lt_wfRel.wf Nat.lt_wfRel.wf))

section Work

variable {c c' : Runner.ClientProc Process} {e : Runner.Event}

lemma readCall_shorter {fuel : ℕ} {r r' : Reader} {res : Except IoError KvCall}
    (h : readCall fuel r = some (res, r')) : r'.stream.length < r.stream.length := by
  rw [readCall] at h
  cases hread : readNextLine fuel r with
  | none =>
      rw [hread] at h
      cases h
  | some out =>
      cases hlive : liveLines r.stream with
      | nil =>
          rw [readNextLine_eq_none hlive] at hread
          cases hread
      | cons line rest =>
          obtain ⟨res₁, r₁, hnext, -, -, hshort⟩ :=
            exists_readNextLine hlive (Nat.lt_succ_self r.stream.length)
          obtain rfl := Loop.run_unique hread hnext
          rw [hread] at h
          cases res₁ with
          | error e =>
              cases h
              exact hshort
          | ok size =>
              cases h
              exact hshort

/-- **Each step** of the driver or the process leaves less work, unless it goes round. -/
lemma lessWork_of_step (he : e.Advances) (h : Step program c e c') :
    LessWork (workOf c') (workOf c) := by
  cases h with
  | sendCall | waitResp | stop | stopFails | stopWaits | drop | spins | clientEnd => exact he.elim
  | driver hdriver =>
      cases driverStep_cases hdriver with
      | receives hd hqueue =>
          refine Prod.Lex.left _ _ ?_
          rw [hqueue]
          exact Nat.lt_succ_self _
      | writes hd | reads hd | sends hd | unowned hd | broken hd | garbled hd | unheard hd =>
          refine Prod.Lex.right _ (Prod.Lex.left _ _ ?_)
          simp [hd, Driver.work]
  | client hclient =>
      obtain ⟨fuel, hmain⟩ := hclient
      refine Prod.Lex.right _ (Prod.Lex.right _ ?_)
      cases hp : c.process with
      | reads state =>
          rw [hp, mainStep] at hmain
          split at hmain
          · cases hmain
          · rename_i hread
            cases hmain
            exact Prod.Lex.left _ _ (readCall_shorter hread)
          · rename_i hread
            cases hmain
            exact Prod.Lex.left _ _ (readCall_shorter hread)
      | writes pending next =>
          rw [hp] at hmain
          cases pending with
          | cons line pending =>
              cases hmain
              exact Prod.Lex.right _ (Nat.lt_succ_self _)
          | nil =>
              cases next with
              | none | some state =>
                  cases hmain
                  exact Prod.Lex.right _ (by simp [Runner.ClientProc.goOn, Process.work])
      | exited =>
          rw [hp] at hmain
          cases hmain

/-- The driver and the process cannot go on forever, but for going round. -/
theorem advances_acc (c : Runner.ClientProc Process) :
    Acc (fun c' c => Leads (Step program) Runner.Event.Advances c c') c := by
  have hwf : WellFounded fun c' c : Runner.ClientProc Process => LessWork (workOf c') (workOf c) :=
    InvImage.wf workOf lessWork_wf
  refine Subrelation.accessible ?_ (hwf.apply c)
  rintro c' c ⟨e, he, hstep⟩
  exact lessWork_of_step he hstep

end Work

/-! ### At rest -/

/-- Why the driver has left its loop: there is no owner any more, or the reference
client has exited after it had answered what it was asked. -/
def EndInv (c : Runner.ClientProc Process) (es : List Runner.Event) : Prop :=
  c.driver.hasEnded = true → c.owner = .dropped
    ∨ program.exited c.process = true ∧ readOf es = receivedOf es ++ c.respQueue
      ∧ (readOf es).length = (askedOf es).length

section EndInv

variable {c c' : Runner.ClientProc Process} {es : List Runner.Event} {e : Runner.Event}

/-- A step of the owner that leaves the driver and the process alone. -/
lemma EndInv.of_same (h : EndInv c es) (hdriver : c'.driver = c.driver)
    (hprocess : c'.process = c.process) (howner : c'.owner = c.owner ∨ c'.owner = .dropped)
    (hresps : receivedOf (es ++ [e]) ++ c'.respQueue = receivedOf es ++ c.respQueue)
    (hread : e.read = none) (hasked : e.asked = none) : EndInv c' (es ++ [e]) := by
  intro hended
  rw [hprocess, hresps, readOf_concat, askedOf_concat, hread, hasked]
  rw [hdriver] at hended
  rcases howner with howner | howner
  · rw [howner]
    simpa using h hended
  · exact Or.inl howner

/-- **Every step** keeps it. -/
lemma EndInv.step (h : EndInv c es) (hinv : SessionInv c es)
    (hclean : ∀ call ∈ sentOf es, call.Clean) (hstep : Step program c e c') :
    EndInv c' (es ++ [e]) := by
  cases hstep.cases with
  | @owner _ _ _ respQueue hinternal howner _ hresps =>
      obtain ⟨hasked, hread, -⟩ := Runner.Event.quiet_of_owner hinternal
      have hall : receivedOf (es ++ [e]) ++ respQueue = receivedOf es ++ c.respQueue := by
        rw [receivedOf_concat, List.append_assoc, ← hresps]
      cases howner with
      | stays _ howns => exact h.of_same rfl rfl (Or.inl howns.symm) hall hread hasked
      | drops => exact h.of_same rfl rfl (Or.inr rfl) hall hread hasked
      | stopping _ hlive =>
          intro hended
          exact absurd hended (by simp [hlive])
  | spins hd =>
      intro hended
      rw [hd] at hended
      cases hended
  | clientEnd hended hclient =>
      obtain ⟨⟨state, hp⟩, -⟩ := hclient
      rcases h hended with howner | ⟨hexited, -⟩
      · exact fun _ => Or.inl howner
      · rw [hp] at hexited
        cases hexited
  | driver hdriver =>
      cases hdriver with
      | receives hd | writes hd | reads hd | sends hd =>
          intro hended
          cases hended
      | unowned hd hqueue howner => exact fun _ => Or.inl howner
      | unheard hd howner => exact fun _ => Or.inl howner
      | garbled hd hread => exact (hinv.not_garbled hclean hd hread).elim
      | broken hd hexited =>
          obtain ⟨calls, resps, hholds, -, hread⟩ := hinv.driver.inHand
          have hturn := hinv.driver.inTurn
          rw [hd] at hholds hturn
          obtain ⟨-, rfl⟩ := hholds
          refine fun _ => Or.inr ⟨hexited, by simpa using hread, ?_⟩
          simpa using hturn.symm
  | @client p stdin out hclient =>
      intro hended
      rcases h hended with howner | ⟨hexited, -⟩
      · exact Or.inl howner
      · obtain ⟨fuel, hmain⟩ := hclient
        cases hp : c.process with
        | reads | writes =>
            rw [hp] at hexited
            cases hexited
        | exited =>
            rw [hp] at hmain
            cases hmain

lemma EndInv.run (h : ProcRun program es c) (hclean : ∀ call ∈ sentOf es, call.Clean) :
    EndInv c es :=
  session_induction
    (fun hended => absurd hended (by simp [Runner.ClientProc.new, Driver.hasEnded]))
    (fun hpre hclean ih hstep => ih.step (SessionInv.run hpre hclean) hclean hstep) h hclean

end EndInv

section Rest

variable {c c' : Runner.ClientProc Process} {es es' : List Runner.Event}

lemma respond_append_of_exited {handled : List KvCall} (h : mapAfter handled = none)
    (unread : List KvCall) : respond (handled ++ unread) = respond handled := by
  have hmore : replies answer (mapAfter handled) unread = [] := by rw [h, replies_none]
  rw [respond, replies_append]
  exact (congrArg (respond handled ++ ·) hmore).trans (List.append_nil _)

/-- Once it has exited, the reference client has answered all that it ever will. -/
lemma SessionInv.of_exited (h : SessionInv c es) (hexited : program.exited c.process = true) :
    writtenOf es = writeResponses (respond (askedOf es)) ∧ mapAfter (askedOf es) = none := by
  obtain ⟨handled, unread, hasked, hat, -⟩ := h.process
  cases hp : c.process with
  | reads | writes =>
      rw [hp] at hexited
      cases hexited
  | exited =>
      rw [hp] at hat
      obtain ⟨hmap, hwritten⟩ := hat
      rw [hasked, respond_append_of_exited hmap, mapAfter, after_append]
      refine ⟨hwritten, ?_⟩
      show after answer (mapAfter handled) unread = none
      rw [hmap, after_none]

/-- What it has been asked and read of it, where nothing more can be read. -/
lemma SessionInv.read_of_waits (h : SessionInv c es) (hclean : ∀ call ∈ sentOf es, call.Clean)
    (hwritten : writtenOf es = writeResponses (respond (askedOf es))) (hdriver : c.driver = .reads)
    (hread : ∀ fuel resp r, fromRead fuel c.stdout ≠ some (.ok resp, r)) :
    readOf es = respond (askedOf es) := by
  have hleft : readResponse (liveLines c.stdout.stream) = .waits := by
    by_contra hne
    obtain ⟨fuel, ⟨res, r⟩, hfrom, -⟩ := exists_fromRead_outcome hne
    cases res with
    | ok resp => exact hread fuel resp r hfrom
    | error err => exact h.not_garbled hclean hdriver hfrom
  have htold := h.driver.told
  rw [hdriver] at htold
  have hnow := htold []
  rw [List.append_nil, List.append_nil, hwritten,
    answers_writeResponses (SessionInv.respond_clean hclean h.driver.asked), answers_head,
    hleft] at hnow
  exact (List.map_injective_iff.mpr (Option.some_injective _)
    (hnow.trans (List.append_nil _))).symm

/-- At rest the reference client has answered all that it was asked. -/
lemma SessionInv.written_of_atRest (h : SessionInv c es)
    (hclean : ∀ call ∈ sentOf es, call.Clean)
    (hrest : AtRest (Step program) Runner.Event.Advances c) :
    writtenOf es = writeResponses (respond (askedOf es)) := by
  obtain ⟨handled, unread, hasked, hat, hstdin⟩ := h.process
  have hstuck : ∀ fuel p stdin out, mainStep fuel c.process c.stdin ≠ some (p, stdin, out) :=
    fun fuel p stdin out hmain => hrest (.client out) _ trivial (.client ⟨fuel, hmain⟩)
  cases hp : c.process with
  | reads state =>
      rw [hp] at hat hstdin hstuck
      cases unread with
      | nil =>
          rw [List.append_nil] at hasked
          rw [hasked]
          exact hat.2
      | cons call rest =>
          have hcall : call ∈ sentOf es := h.driver.asked.subset (by rw [hasked]; simp)
          obtain ⟨r', hread, -⟩ := exists_readCall (hclean call hcall).words (writeCalls rest) []
          refine absurd ?_ (hstuck 1 (Refcli.handled call state) r'.stream [])
          have hnext : readCall 1 ⟨writeCalls (call :: rest), []⟩ = some (.ok call, r') := hread
          rw [hstdin rfl, mainStep]
          simp only [hnext]
  | writes pending next =>
      rw [hp] at hstuck
      cases pending with
      | cons line pending => exact absurd rfl (hstuck 0 _ _ _)
      | nil =>
          cases next with
          | none => exact absurd rfl (hstuck 0 _ _ _)
          | some state => exact absurd rfl (hstuck 0 _ _ _)
  | exited => exact (h.of_exited (by rw [hp]; rfl)).1

/-- **At rest every call has been answered**: the responses to all calls sent have
been received, or wait in the channel. -/
lemma SessionInv.respond_of_atRest (h : SessionInv c es) (hend : EndInv c es)
    (hclean : ∀ call ∈ sentOf es, call.Clean) (howner : c.owner ≠ .dropped)
    (hrest : AtRest (Step program) Runner.Event.Advances c) :
    receivedOf es ++ c.respQueue = respond (sentOf es) := by
  have hwritten := h.written_of_atRest hclean hrest
  obtain ⟨calls, resps, hholds, hsent, hread⟩ := h.driver.inHand
  have hturn := h.driver.inTurn
  have hclean' : ∀ resp ∈ respond (askedOf es), resp.Clean :=
    SessionInv.respond_clean hclean h.driver.asked
  -- the responses read are all if there are as many as calls
  have hall : (readOf es).length = (askedOf es).length → readOf es = respond (askedOf es) := by
    intro hlength
    have hbegin := h.driver.read
    rw [hwritten, answers_writeResponses hclean',
      List.prefix_map_iff_of_injective (Option.some_injective _)] at hbegin
    refine hbegin.eq_of_length_le ?_
    rw [hlength]
    exact length_replies_le _ _ _
  rcases driver_of_atRest hrest howner with ⟨hd, hqueue⟩ | ⟨hd, hfrom⟩ | hended
  · rw [hd] at hholds hturn
    obtain ⟨rfl, rfl⟩ := hholds
    rw [hqueue, List.append_nil, List.append_nil] at hsent
    rw [hsent, ← hall hturn.symm, hread, List.append_nil]
  · rw [hd] at hholds hturn
    obtain ⟨rfl, rfl⟩ := hholds
    have heq : readOf es = respond (askedOf es) := h.read_of_waits hclean hwritten hd hfrom
    -- the call that waits for its response is the one that made the process exit
    have hgone : mapAfter (askedOf es) = none := by
      by_contra halive
      have hlength : (respond (askedOf es)).length = (askedOf es).length :=
        length_replies_of_alive halive
      rw [← heq, hturn] at hlength
      omega
    calc receivedOf es ++ c.respQueue = readOf es := by rw [hread, List.append_nil]
      _ = respond (askedOf es) := heq
      _ = respond (sentOf es) := by rw [hsent, List.append_assoc, respond_append_of_exited hgone]
  · rcases hend hended with hdropped | ⟨hgone, hreceived, hlength⟩
    · exact absurd hdropped howner
    · rw [hsent, List.append_assoc, respond_append_of_exited (h.of_exited hgone).2,
        ← hall hlength, hreceived]

/-- Steps of the driver and the process send and receive nothing. -/
lemma internal_events (h : ∀ e ∈ es', e.Internal) :
    sentOf (es ++ es') = sentOf es ∧ receivedOf (es ++ es') = receivedOf es := by
  have hnone : ∀ e ∈ es', e.sent = none ∧ e.received = none := by
    intro e he
    have hinternal := h e he
    cases e with
    | driver | client | clientEnd => exact ⟨rfl, rfl⟩
    | sendCall | waitResp | stop | stopWaits | drop => exact hinternal.elim
  rw [sentOf, sentOf, receivedOf, receivedOf, List.filterMap_append, List.filterMap_append,
    List.filterMap_eq_nil_iff.mpr fun e he => (hnone e he).1,
    List.filterMap_eq_nil_iff.mpr fun e he => (hnone e he).2, List.append_nil, List.append_nil]
  exact ⟨rfl, rfl⟩

/-- The owner is as it was before steps of the driver and the process. -/
lemma internal_owner (h : Exec (Step program) c es' c') (hes : ∀ e ∈ es', e.Internal) :
    c'.owner = c.owner := by
  induction h with
  | nil => rfl
  | @snoc es' c' c'' e _ hstep ih =>
      rw [← ih fun e' he' => hes e' (List.mem_append_left _ he')]
      exact hstep.owner_eq (hes e (by simp)).stays

end Rest

section Replied

variable {c c' : Runner.ClientProc Process} {es : List Runner.Event} {e : Runner.Event}

/-- **No round at the end of the output**, where each call sent has a response: the driver
does not wait for one when the reference client has exited. -/
lemma SessionInv.not_spins (h : SessionInv c es) (hclean : ∀ call ∈ sentOf es, call.Clean)
    (hall : (respond (sentOf es)).length = (sentOf es).length) (hdriver : c.driver = .reads)
    (hexited : program.exited c.process = true) (hread : ∀ fuel, fromRead fuel c.stdout = none) :
    False := by
  have heq : readOf es = respond (askedOf es) :=
    h.read_of_waits hclean (h.of_exited hexited).1 hdriver fun fuel resp r hfrom => by
      rw [hread fuel] at hfrom
      cases hfrom
  have hasked : (respond (askedOf es)).length = (askedOf es).length :=
    length_replies_of_isPrefix h.driver.asked hall
  have hturn := h.driver.inTurn
  rw [hdriver, heq] at hturn
  simp only [Driver.InTurn] at hturn
  omega

/-- At rest a process that is not waiting for a line has exited. -/
lemma exited_of_atRest (hrest : AtRest (Step program) Runner.Event.Advances c)
    (hreads : ∀ state, c.process ≠ .reads state) : program.exited c.process = true := by
  have hstuck : ∀ p stdin out, mainStep 0 c.process c.stdin ≠ some (p, stdin, out) :=
    fun p stdin out hmain => hrest (.client out) _ trivial (.client ⟨0, hmain⟩)
  cases hp : c.process with
  | reads state => exact absurd hp (hreads state)
  | exited => rfl
  | writes pending next =>
      rw [hp] at hstuck
      cases pending with
      | cons line pending => exact absurd rfl (hstuck _ _ _)
      | nil =>
          cases next with
          | none | some state => exact absurd rfl (hstuck _ _ _)

/-- The reference client reads on only where not all of its responses have been read, once
there is a call on which it exits. -/
lemma SessionInv.not_reads (h : SessionInv c es) (hclean : ∀ call ∈ sentOf es, call.Clean)
    (hread : (sentOf es).length ≤ (readOf es).length) (hexits : mapAfter (sentOf es) = none)
    (state : State) : c.process ≠ .reads state := by
  intro hp
  obtain ⟨handled, unread, hasked, hat, -⟩ := h.process
  rw [hp] at hat
  obtain ⟨hmap, hwritten⟩ := hat
  have hsub : handled <+: sentOf es :=
    List.IsPrefix.trans ⟨unread, hasked.symm⟩ h.driver.asked
  have htold := h.driver.read
  rw [hwritten, answers_writeResponses (SessionInv.respond_clean hclean hsub),
    List.prefix_map_iff_of_injective (Option.some_injective _)] at htold
  -- it has handled all calls then, and gone on
  have hlength : (sentOf es).length ≤ handled.length :=
    hread.trans (htold.length_le.trans (length_replies_le _ _ _))
  rw [← hsub.eq_of_length_le hlength, hmap] at hexits
  cases hexits

variable (h : ProcRun program es c) (hclean : ∀ call ∈ sentOf es, call.Clean)
  (howner : c.owner ≠ .dropped)

include h hclean howner in
/-- A process whose handle is owned does not see the end of its input. -/
lemma not_stepEnd {p : Process} {stdin out : Stream} (hended : c.driver.hasEnded = true)
    (hclient : program.stepEnd c.process c.stdin p stdin out) : False := by
  obtain ⟨⟨state, hp⟩, -⟩ := hclient
  rcases EndInv.run h hclean hended with hdropped | ⟨hexited, -⟩
  · exact howner hdropped
  · rw [hp] at hexited
    cases hexited

variable (hall : (respond (sentOf es)).length = (sentOf es).length)

include h hclean howner hall in
lemma advances_of_internal (he : e.Internal) (hstep : Step program c e c') : e.Advances := by
  cases hstep with
  | sendCall | waitResp | stop | stopFails | stopWaits | drop => exact he.elim
  | driver hdriver => exact advances_of_driverStep hdriver
  | spins hdriver hexited hread =>
      exact ((SessionInv.run h hclean).not_spins hclean hall hdriver hexited hread).elim
  | client => trivial
  | clientEnd hended hclient => exact (not_stepEnd h hclean howner hended hclient).elim

include h hclean howner hall in
/-- **The driver and the process come to rest** where each call sent has a response. -/
lemma internal_acc : Acc (fun c' c => Leads (Step program) Runner.Event.Internal c c') c := by
  induction advances_acc c generalizing es with
  | intro c _ ih =>
      refine ⟨_, ?_⟩
      rintro c' ⟨e, he, hstep⟩
      have hadvances := advances_of_internal h hclean howner hall he hstep
      obtain ⟨hsent, -⟩ := @internal_events es [e] (List.forall_mem_singleton.mpr he)
      refine ih c' ⟨e, hadvances, hstep⟩ (h.snoc hstep) ?_ ?_ ?_
      · rwa [hsent]
      · rwa [hstep.owner_eq he.stays]
      · rwa [hsent]

end Replied

/-- **Every call is answered**: from any point of a session, as long as the handle is
owned, the driver and the process come to rest, on any schedule, if each call sent has a
response. If one has none, because the reference client has exited, they may go on with
rounds of `read_next_line`, but with nothing else. And where nothing else is left, the
responses to all calls sent have been received or wait to be. -/
theorem answered_session (es : List Runner.Event) (c : Runner.ClientProc Process)
    (h : ProcRun program es c) (hclean : ∀ call ∈ sentOf es, call.Clean)
    (howner : c.owner ≠ .dropped) :
    ((respond (sentOf es)).length = (sentOf es).length →
        Acc (fun c' c => Leads (Step program) Runner.Event.Internal c c') c)
      ∧ Acc (fun c' c => Leads (Step program) Runner.Event.Advances c c') c
      ∧ ∀ es' c', Exec (Step program) c es' c' → (∀ e ∈ es', e.Internal) →
        AtRest (Step program) Runner.Event.Advances c' →
        receivedOf es ++ c'.respQueue = respond (sentOf es) := by
  refine ⟨internal_acc h hclean howner, advances_acc c, fun es' c' hrun hes hrest => ?_⟩
  obtain ⟨hsent, hreceived⟩ := @internal_events es es' hes
  have hwhole : ProcRun program (es ++ es') c' := exec_append h hrun
  have hclean' : ∀ call ∈ sentOf (es ++ es'), call.Clean := by
    rw [hsent]
    exact hclean
  have howner' : c'.owner ≠ .dropped := by
    rw [internal_owner hrun hes]
    exact howner
  have hall := (SessionInv.run hwhole hclean').respond_of_atRest (EndInv.run hwhole hclean') hclean'
    howner' hrest
  rwa [hsent, hreceived] at hall

theorem answered_session_put : ∃ c, ProcRun program putEvents c
    ∧ Acc (fun c' c => Leads (Step program) Runner.Event.Internal c c') c
    ∧ ∀ es' c', Exec (Step program) c es' c' → (∀ e ∈ es', e.Internal) →
      AtRest (Step program) Runner.Event.Advances c' →
      receivedOf putEvents ++ c'.respQueue = respond (sentOf putEvents) := by
  obtain ⟨c, hrun, howner, -⟩ := exists_putRun
  obtain ⟨hacc, -, hrest⟩ :=
    answered_session putEvents c hrun clean_putEvents (by rw [howner]; decide)
  exact ⟨c, hrun, hacc rfl, hrest⟩

end Madkv
