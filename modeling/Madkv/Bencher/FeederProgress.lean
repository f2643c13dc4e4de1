import Madkv.Bencher.Feeder
import Madkv.Refcli.Stopping

/-!
A feeder thread over the reference client comes to its end.

* `Feeder.Holds`: what the owner of the handle has sent and got back, by its phase.
* `FeedEvent.Timely`: no response is waited for too long. `Served`: then the thread leaves
  its loop for the end of its output or for a line, with all calls answered. `Stopped`: and
  it returns when its client has answered its Stop.
* `FeedEvent.Advances`: nor is it a round at the end of a pipe. `feeder_acc`: the thread and
  its client cannot go on forever so. `exists_feedStep`: until the thread has returned, it or
  its client can go on so.
* `feeder_completes`: hence every schedule goes through the whole script.
-/

namespace Madkv.Bencher

open Words Execution Refcli

/-- Nothing has been waited for in vain. -/
def FeedEvent.Timely : FeedEvent → Prop
  | .own (.waitResp res) => res ≠ .error Runner.timeoutError
  | .own (.stopWaits res) => res ≠ .error Runner.timeoutError
  | _ => True

/-- Nor does the driver or the client go round at the end of a pipe. -/
def FeedEvent.Advances : FeedEvent → Prop
  | .inner e => e.Advances
  | e => e.Timely

lemma FeedEvent.Advances.timely {e : FeedEvent} (h : e.Advances) : e.Timely := by
  cases e with
  | inner => trivial
  | line | own => exact h

/-! ### The handle -/

section Handle

variable {P F : Type} {prog : Runner.Program P} {parseFloat : String → Except RunnerError F}
  {asUsize : F → ℕ} {stats : Perf F} {ikeys : Finset String} {output : Stream}
  {t t' : Feeder P F} {es : List FeedEvent} {e : FeedEvent}

/-- What the thread has sent to its client, and got back, as long as it owns the handle. -/
def Feeder.Holds (t : Feeder P F) (es : List FeedEvent) : Prop :=
  match t.phase with
  | .feeds | .waits | .stops _ | .unwinds _ => t.client.owner = .owns
      ∧ Runner.sentOf (procOf es) = fedOf es ∧ Runner.receivedOf (procOf es) = answersOf es
  | .stopping _ => t.client.owner = .stopping
      ∧ Runner.sentOf (procOf es) = fedOf es ++ [.stop]
      ∧ Runner.receivedOf (procOf es) = answersOf es
  | .panicked _ => t.client.owner = .dropped ∧ Runner.sentOf (procOf es) = fedOf es
  | .returned _ => True

/-- The driver and the process send and receive nothing for the thread. -/
lemma Feeder.Holds.inner {e : Runner.Event} {client : Runner.ClientProc P} (h : t.Holds es)
    (he : e.Internal) (hstep : Runner.Step prog t.client e client) :
    Feeder.Holds { t with client } (es ++ [.inner e]) := by
  have howner : client.owner = t.client.owner := hstep.owner_eq he.stays
  have hquiet : e.sent = none ∧ e.received = none := by
    cases e <;> first | exact he.elim | exact ⟨rfl, rfl⟩
  rw [Feeder.Holds] at h ⊢
  simp only [fedOf_concat, answersOf_concat, procOf_concat, FeedEvent.proc, FeedEvent.fed,
    FeedEvent.answer, Option.toList_some, Option.toList_none, List.append_nil,
    Runner.sentOf_concat, Runner.receivedOf_concat, hquiet.1, hquiet.2, howner]
  exact h

/-- **One step** of the thread or its client. -/
lemma Feeder.Holds.step (h : t.Holds es) (hstep : FeedStep prog parseFloat asUsize t e t') :
    t'.Holds (es ++ [e]) := by
  cases hstep with
  | skip hphase | eof hphase | fails hphase | panics hphase =>
      rw [Feeder.Holds, hphase] at h
      simpa [Feeder.Holds, hphase] using h
  | @sendCall call _ _ _ res client hphase _ hsend =>
      rw [Feeder.Holds, hphase] at h
      have howner := hsend.owner_eq rfl
      cases res <;> simpa [Feeder.Holds, Phase.next, howner] using h
  | @waitResp res client hphase hwait =>
      rw [Feeder.Holds, hphase] at h
      have howner := hwait.owner_eq rfl
      cases res <;> simpa [Feeder.Holds, Phase.next, howner] using h
  | @stop _ client hphase hstop =>
      rw [Feeder.Holds, hphase] at h
      obtain ⟨-, hsent, hreceived⟩ := h
      cases hstop
      exact ⟨rfl, by simp [hsent], by simp [hreceived]⟩
  | stopFails | stopWaits => trivial
  | drop hphase hdrop =>
      rw [Feeder.Holds, hphase] at h
      obtain ⟨-, hsent, -⟩ := h
      cases hdrop
      exact ⟨rfl, by simp [hsent]⟩
  | inner he hstep => exact h.inner he hstep

lemma Feeder.Holds.run (h : FeedRun prog parseFloat asUsize stats ikeys output es t) :
    t.Holds es :=
  h.invariant (P := fun es t => t.Holds es) ⟨rfl, rfl, rfl⟩ fun _ _ _ _ _ ih hstep => ih.step hstep

end Handle

/-! ### Coming to rest -/

section Rest

variable {P F : Type} {parseFloat : String → Except RunnerError F} {asUsize : F → ℕ}
  {stdout stdout' : Stream} {ikeys : Finset String} {stats : Perf F}
  {res : Except LineEnd (Option (Option KvCall × Finset String × Perf F))}

/-- What is read of the output is gone. -/
lemma takeALine_length (h : takeALine parseFloat asUsize stdout ikeys stats = (res, stdout')) :
    stdout'.length ≤ stdout.length
      ∧ ∀ said, res = .ok (some said) → stdout'.length < stdout.length := by
  have hrest : stdout' = (takeLine stdout).2 := by
    rw [takeALine, readLine] at h
    cases hdecode : decode (takeLine stdout).1 with
    | none =>
        rw [hdecode] at h
        exact (Prod.mk.inj h).2.symm
    | some text =>
        rw [hdecode] at h
        simp only at h
        split_ifs at h <;> exact (Prod.mk.inj h).2.symm
  by_cases hne : stdout = []
  · subst hne
    obtain ⟨rfl, rfl⟩ := Prod.mk.inj h
    exact ⟨le_rfl, fun _ hsaid => by cases hsaid⟩
  · have hlt := length_takeLine_lt hne
    rw [hrest]
    exact ⟨hlt.le, fun _ _ => hlt⟩

/-- How far the thread is from its next line. -/
def Phase.work : Phase → ℕ
  | .waits => 4
  | .feeds => 3
  | .stops _ => 2
  | .stopping _ | .unwinds _ => 1
  | .returned _ | .panicked _ => 0

/-- The output to be read and the way to its next line. -/
def Feeder.work (t : Feeder P F) : ℕ := 2 * t.stdout.length + t.phase.work

/-- A step is one of the thread's own, or it leaves the thread as it is. -/
lemma work_of_feedStep {prog : Runner.Program P} {t t' : Feeder P F} {e : FeedEvent}
    (h : FeedStep prog parseFloat asUsize t e t') : t'.work < t.work
      ∨ t'.work = t.work ∧ ∃ ev, e = .inner ev ∧ Runner.Step prog t.client ev t'.client := by
  have hnext : ∀ {α : Type} (res : Except RunnerError α) (phase : Phase), 2 ≤ phase.work →
      (phase.next res).work ≤ phase.work := by
    intro α res phase hle
    cases res with
    | ok => exact le_rfl
    | error => exact hle
  cases h with
  | skip hphase hline =>
      have hlt := (takeALine_length hline).2 _ rfl
      left
      simp only [Feeder.work, hphase]
      omega
  | eof hphase hline | fails hphase hline | panics hphase hline =>
      have hle := (takeALine_length hline).1
      left
      simp only [Feeder.work, hphase, Phase.work]
      omega
  | @sendCall call _ _ _ res _ hphase hline =>
      have hlt := (takeALine_length hline).2 _ rfl
      have hwork := hnext res .waits (by decide)
      left
      simp only [Feeder.work, hphase, Phase.work] at hwork ⊢
      omega
  | @waitResp res _ hphase =>
      have hwork := hnext res .feeds (by decide)
      left
      simp only [Feeder.work, hphase, Phase.work] at hwork ⊢
      omega
  | stop hphase | stopFails hphase | stopWaits hphase | drop hphase =>
      left
      simp only [Feeder.work, hphase, Phase.work]
      omega
  | inner he hstep => exact .inr ⟨rfl, _, rfl, hstep⟩

/-- **The thread cannot go on forever**: it takes one line after the other, and between two
of its steps the client comes to rest, unless it goes round. -/
theorem feeder_acc (parseFloat : String → Except RunnerError F) (asUsize : F → ℕ)
    (t : Feeder Process F) :
    Acc (fun t' t => Leads (FeedStep program parseFloat asUsize) FeedEvent.Advances t t') t := by
  have hwf : WellFounded (Prod.Lex (· < ·) LessWork) :=
    WellFounded.prod_lex Nat.lt_wfRel.wf lessWork_wf
  have hinv := InvImage.wf (fun t : Feeder Process F => (t.work, workOf t.client)) hwf
  refine Subrelation.accessible ?_ (hinv.apply t)
  rintro t' t ⟨e, he, hstep⟩
  rcases work_of_feedStep hstep with hlt | ⟨heq, ev, rfl, hclient⟩
  · exact Prod.Lex.left _ _ hlt
  · show Prod.Lex (· < ·) LessWork (t'.work, workOf t'.client) (t.work, workOf t.client)
    rw [heq]
    exact Prod.Lex.right _ (lessWork_of_step he hclient)

end Rest

/-! ### Clean scripts -/

section Clean

variable {F : Type} {parseFloat : String → Except RunnerError F} {asUsize : F → ℕ}
  {segs fields : List String} {ikeys ikeys' : Finset String} {stats : Perf F} {call : KvCall}
  {ls : List Stream}

lemma head_joinValue (hne : fields ≠ []) : (joinValue fields).toList.head? = some '_' := by
  have hfold : ∀ (l : List String) (value : String), value.toList.head? = some '_' →
      (l.foldl (fun value seg => value ++ "_" ++ seg) value).toList.head? = some '_' := by
    intro l
    induction l with
    | nil => exact fun _ h => h
    | cons seg l ih =>
        intro value h
        refine ih _ ?_
        simp [h]
  obtain ⟨seg, rest, rfl⟩ := List.exists_cons_of_ne_nil hne
  exact hfold rest _ (by simp)

/-- A value of the driver is none of the words that the wire reserves. -/
lemma cleanEntry_joinValue {key : String} (hkey : IsWord key) (hvalue : IsWord (joinValue fields)) :
    CleanEntry key (joinValue fields) := by
  have hne : fields ≠ [] := by
    rintro rfl
    exact hvalue.ne_nil rfl
  have hhead := head_joinValue hne
  refine ⟨hkey, hvalue, fun hnull => ?_, fun hend => ?_⟩
  · rw [hnull] at hhead
    cases hhead
  · rw [(Prod.mk.inj hend).2] at hhead
    cases hhead

lemma Translated.clean (h : Translated segs ikeys (some call) ikeys')
    (hsegs : ∀ s ∈ segs, IsWord s) (hkeys : ∀ k ∈ ikeys, IsWord k) (hvalue : ¬ EmptyValue segs) :
    call.Clean := by
  have hwords := Madkv.survives_iff.mp ((h.survives_iff hsegs hkeys).mpr hvalue)
  cases h with
  | @insert table key | @update table key =>
      exact cleanEntry_joinValue (hwords (joinKey table key) List.mem_cons_self)
        (hwords _ (List.mem_cons_of_mem _ List.mem_cons_self))
  | read => exact hwords _ List.mem_cons_self
  | scan =>
      exact ⟨hwords _ List.mem_cons_self, hwords _ (List.mem_cons_of_mem _ List.mem_cons_self)⟩

lemma Translated.ne_stop (h : Translated segs ikeys (some call) ikeys') : call ≠ .stop := by
  cases h <;> exact fun hstop => nomatch hstop

/-- What holds of the calls of lines holds of those of a script. -/
lemma forall_mem_script {Q : KvCall → Prop}
    (hkeys : ∀ k ∈ ikeys, IsWord k)
    (h : ∀ text ∈ ls.filterMap decode, ∀ ikeys ikeys' call, (∀ k ∈ ikeys, IsWord k) →
      Translated (getSegsOfLine text) ikeys (some call) ikeys' → Q call) :
    ∀ call ∈ (script parseFloat asUsize ikeys stats ls).calls, Q call := by
  induction ls generalizing ikeys stats with
  | nil => exact fun call hcall => absurd hcall List.not_mem_nil
  | cons line rest ih =>
      rw [script]
      cases hdecode : decode line with
      | none => exact fun call hcall => absurd hcall List.not_mem_nil
      | some text =>
          rw [List.filterMap_cons_some hdecode, List.forall_mem_cons] at h
          simp only
          cases hfeed : feedALine parseFloat asUsize text ikeys stats with
          | error e => exact fun call hcall => absurd hcall List.not_mem_nil
          | ok said =>
              obtain ⟨call, ikeys₁, stats₁⟩ := said
              have htranslated := interpretYcsbCall_eq_ok_iff.mp (feedALine_eq_ok hfeed)
              have hkeys₁ := htranslated.words (fun _ => word_of_mem_segs) hkeys
              intro call' hcall'
              rcases List.mem_append.mp hcall' with hcall' | hcall'
              · rw [Option.mem_toList] at hcall'
                obtain rfl := hcall'
                exact h.1 ikeys ikeys₁ call' hkeys htranslated
              · exact ih hkeys₁ h.2 call' hcall'

lemma script_clean (hkeys : ∀ k ∈ ikeys, IsWord k)
    (hvalues : ∀ text ∈ ls.filterMap decode, ¬ EmptyValue (getSegsOfLine text)) :
    ∀ call ∈ (script parseFloat asUsize ikeys stats ls).calls, call.Clean :=
  forall_mem_script hkeys fun text htext _ _ _ hikeys htranslated =>
    htranslated.clean (fun _ => word_of_mem_segs) hikeys (hvalues text htext)

lemma stop_notMem_script (hkeys : ∀ k ∈ ikeys, IsWord k) :
    .stop ∉ (script parseFloat asUsize ikeys stats ls).calls := fun hstop =>
  forall_mem_script (Q := (· ≠ .stop)) hkeys (fun _ _ _ _ _ _ htranslated => htranslated.ne_stop)
    .stop hstop rfl

end Clean

/-! ### The thread with the reference client -/

/-- How the thread ends. -/
def Feeder.Ends {P F : Type} (t : Feeder P F) : Ending F → Prop
  | .eof ikeys stats => t.report = some (some ⟨1, stats, ikeys⟩)
  | .fails (.error e) => t.phase = .returned (some e)
  | .fails (.panic p) => t.phase = .panicked p

/-- Once the loop has been left, all calls have been answered, and it was not for the client. -/
def Feeder.Served {P F : Type} (t : Feeder P F) (sc : Script F) (fed : List KvCall)
    (answers : List KvResp) : Prop :=
  match t.phase with
  | .feeds | .waits => True
  | .stops none | .stopping none | .returned none | .unwinds _ | .panicked _ =>
      answers = respond fed
  | .stops (some e) | .stopping (some e) | .returned (some e) =>
      answers = respond fed ∧ sc = ⟨fed, .fails (.error e)⟩

/-- How the thread leaves its client: once it has answered its Stop, the last call, and has
exited, or with the handle dropped by a panic. -/
def Feeder.Leaves {F : Type} (t : Feeder Process F) (es : List FeedEvent) : Ending F → Prop
  | .fails (.panic _) => t.client.owner = .dropped ∧ Runner.sentOf (procOf es) = fedOf es
  | .eof _ _ | .fails (.error _) => Runner.sentOf (procOf es) = fedOf es ++ [.stop]
      ∧ Runner.receivedOf (procOf es) = answersOf es ++ [.stop]
      ∧ program.exited t.client.process = true

/-- A thread that has returned has got the answer to its Stop. -/
def Feeder.Stopped {P F : Type} (t : Feeder P F) (es : List FeedEvent) : Prop :=
  ∀ err, t.phase = .returned err → Runner.sentOf (procOf es) = fedOf es ++ [.stop]
    ∧ Runner.receivedOf (procOf es) = answersOf es ++ [.stop]

section Served

variable {F : Type} {parseFloat : String → Except RunnerError F} {asUsize : F → ℕ}
  {stats : Perf F} {ikeys : Finset String} {output : Stream} {t t' : Feeder Process F}
  {es : List FeedEvent} {e : FeedEvent} {sc : Script F}

/-- The thread has sent no Stop, and is the owner of the handle. -/
def Phase.owns : Phase → Bool
  | .feeds | .waits | .stops _ | .unwinds _ => true
  | _ => false

/-- The thread has come to its end. -/
def Phase.over : Phase → Bool
  | .returned _ | .panicked _ => true
  | _ => false

lemma Feeder.Holds.of_owns (h : t.Holds es) (howns : t.phase.owns = true) :
    t.client.owner = .owns ∧ Runner.sentOf (procOf es) = fedOf es
      ∧ Runner.receivedOf (procOf es) = answersOf es := by
  rw [Feeder.Holds] at h
  cases hphase : t.phase <;> rw [hphase] at h howns <;> first | exact h | cases howns

variable (hsc : sc = script parseFloat asUsize ikeys stats (lines output))
  (hclean : ∀ call ∈ sc.calls, call.Clean) (hstop : .stop ∉ sc.calls)
  (hscans : InOrderScans sc.calls)
  (hrun : FeedRun program parseFloat asUsize stats ikeys output es t)

include hsc hrun in
lemma fed_isPrefix : fedOf es <+: sc.calls := by
  rw [hsc]
  exact (Feeder.Follows.run hrun).oneAtATime.1

include hsc hstop hscans hrun in
/-- The calls that the thread has sent have responses, and so has a Stop after them. -/
lemma respond_fed : (respond (fedOf es)).length = (fedOf es).length
    ∧ respond (fedOf es ++ [.stop]) = respond (fedOf es) ++ [.stop] := by
  have hsub := (fed_isPrefix hsc hrun).subset
  exact respond_concat_stop (fun hmem => hstop (hsub hmem))
    fun keyStart keyEnd hscan => hscans keyStart keyEnd (hsub hscan)

include hsc hclean hrun in
lemma clean_sent (hsent : Runner.sentOf (procOf es) <+: fedOf es ++ [.stop]) :
    ∀ call ∈ Runner.sentOf (procOf es), call.Clean := by
  intro call hcall
  rcases List.mem_append.mp (hsent.subset hcall) with hcall | hcall
  · exact hclean call ((fed_isPrefix hsc hrun).subset hcall)
  · rw [List.mem_singleton.mp hcall]
    trivial

include hsc hstop hscans hrun in
lemma replied_sent (hsent : Runner.sentOf (procOf es) <+: fedOf es ++ [.stop]) :
    (respond (Runner.sentOf (procOf es))).length = (Runner.sentOf (procOf es)).length := by
  obtain ⟨hlength, hrespond⟩ := respond_fed hsc hstop hscans hrun
  refine Replies.length_replies_of_isPrefix hsent ?_
  show (respond (fedOf es ++ [.stop])).length = _
  rw [hrespond, List.length_append, List.length_append, hlength]
  rfl

include hsc hclean hrun in
/-- What has been got back is what the reference client answers. -/
lemma answers_eq (howns : t.phase.owns = true)
    (hlength : (fedOf es).length = (answersOf es).length) :
    answersOf es = respond (fedOf es) := by
  obtain ⟨-, hsent, hreceived⟩ := (Feeder.Holds.run hrun).of_owns howns
  have hsub := fed_isPrefix hsc hrun
  have hcleanSent : ∀ call ∈ Runner.sentOf (procOf es), call.Clean := fun call hcall =>
    hclean call (hsub.subset (hsent ▸ hcall))
  have hprefix := (SessionInv.run (FeedRun.procRun hrun) hcleanSent).received hcleanSent
  rw [hsent, hreceived] at hprefix
  refine hprefix.eq_of_length_le ?_
  rw [← hlength]
  exact Replies.length_replies_le _ _ _

include hsc hclean hstop hscans hrun in
/-- The driver of the handle has not left its loop. -/
lemma alive_of_owns (howns : t.phase.owns = true) : t.client.driver.hasEnded = false := by
  obtain ⟨howner, hsent, -⟩ := (Feeder.Holds.run hrun).of_owns howns
  have hsub := fed_isPrefix hsc hrun
  refine alive_of_session (FeedRun.procRun hrun) (fun call hcall => ?_) (by rw [howner]; decide)
    (fun hmem => ?_) fun keyStart keyEnd hscan => ?_
  · exact hclean call (hsub.subset (hsent ▸ hcall))
  · exact hstop (hsub.subset (hsent ▸ hmem))
  · exact hscans keyStart keyEnd (hsub.subset (hsent ▸ hscan))

include hsc hclean hstop hscans hrun in
/-- **One step**: the loop is left at a line only, with nothing on its way. -/
lemma Feeder.Served.step (h : t.Served sc (fedOf es) (answersOf es)) (htimely : e.Timely)
    (hstep : FeedStep program parseFloat asUsize t e t') :
    t'.Served sc (fedOf (es ++ [e])) (answersOf (es ++ [e])) := by
  have hfollows := Feeder.Follows.run hrun
  rw [← hsc] at hfollows
  have hfeeds : t.phase = .feeds → answersOf es = respond (fedOf es)
      ∧ sc = (scriptFrom parseFloat asUsize t.ikeys t.stats
        (takeALine parseFloat asUsize t.stdout t.ikeys t.stats)).after (fedOf es) := by
    intro hphase
    rw [Feeder.Follows, hphase] at hfollows
    refine ⟨answers_eq hsc hclean hrun (by rw [hphase]; rfl) hfollows.2, ?_⟩
    rw [← script_lines]
    exact hfollows.1
  cases hstep with
  | skip hphase => simp [Feeder.Served, hphase]
  | eof hphase | panics hphase => simpa [Feeder.Served] using (hfeeds hphase).1
  | fails hphase hline =>
      obtain ⟨hanswers, hscript⟩ := hfeeds hphase
      rw [hline] at hscript
      refine ⟨by simpa using hanswers, ?_⟩
      simpa [scriptFrom, Script.after] using hscript
  | @sendCall call _ _ _ res client hphase _ hsend =>
      cases res with
      | ok => trivial
      | error err =>
          have halive := alive_of_owns hsc hclean hstop hscans hrun (by rw [hphase]; rfl)
          cases hsend with
          | sendCall _ hsend =>
              rw [(Runner.ClientProc.sendCall_eq_error hsend).1] at halive
              cases halive
  | @waitResp res client hphase hwait =>
      cases res with
      | ok => trivial
      | error err =>
          have halive := alive_of_owns hsc hclean hstop hscans hrun (by rw [hphase]; rfl)
          cases hwait with
          | waitResp _ hwait =>
              -- the driver has not left its loop, so that the time for the response has passed
              rcases Runner.ClientProc.waitResp_error_cases hwait with hended | rfl
              · rw [halive] at hended
                cases hended
              · exact absurd rfl htimely
  | @stop err _ hphase | @stopFails err _ _ hphase | @stopWaits err _ _ hphase =>
      rw [Feeder.Served, hphase] at h
      cases err <;> simpa [Feeder.Served] using h
  | drop hphase =>
      rw [Feeder.Served, hphase] at h
      simpa [Feeder.Served] using h
  | inner => simpa [Feeder.Served] using h

include hsc hclean hstop hscans hrun in
/-- A call that has been made is answered, once the client has nothing left to do. -/
lemma exists_resp_of_waits (hat : t.phase = .waits)
    (hrest : AtRest (Runner.Step program) Runner.Event.Advances t.client) :
    ∃ resp client, t.client.waitResp false = some (.ok resp, client) := by
  obtain ⟨howner, hsent, hreceived⟩ := (Feeder.Holds.run hrun).of_owns (by rw [hat]; rfl)
  have hfollows := Feeder.Follows.run hrun
  rw [Feeder.Follows, hat] at hfollows
  have hsub := fed_isPrefix hsc hrun
  obtain ⟨resp, rest, hqueue⟩ := exists_resp_of_session (FeedRun.procRun hrun)
    (fun call hcall => hclean call (hsub.subset (hsent ▸ hcall))) (by rw [howner]; decide)
    (fun hmem => hstop (hsub.subset (hsent ▸ hmem)))
    (fun keyStart keyEnd hscan => hscans keyStart keyEnd (hsub.subset (hsent ▸ hscan)))
    hrest (by rw [hsent, hreceived, hfollows.2]; exact Nat.lt_succ_self _)
  refine ⟨resp, { t.client with respQueue := rest }, ?_⟩
  rw [Runner.ClientProc.waitResp, hqueue]

include hsc hclean hstop hscans hrun in
/-- So is the Stop. -/
lemma exists_resp_of_stopping {err : Option RunnerError} (hat : t.phase = .stopping err)
    (hrest : AtRest (Runner.Step program) Runner.Event.Advances t.client) :
    ∃ resp client, t.client.waitResp false = some (.ok resp, client) := by
  have hholds := Feeder.Holds.run hrun
  rw [Feeder.Holds, hat] at hholds
  obtain ⟨howner, hsent, hreceived⟩ := hholds
  have hsub := fed_isPrefix hsc hrun
  have hcleanSent := clean_sent hsc hclean hrun (hsent ▸ List.prefix_rfl)
  obtain ⟨calls, hcalls, hsubAnswers⟩ := StopInv.run (FeedRun.procRun hrun) hcleanSent howner
  obtain rfl : fedOf es = calls := by
    rw [hsent] at hcalls
    exact (List.append_inj' hcalls rfl).1
  exact exists_stopResp (FeedRun.procRun hrun) hcleanSent hcalls hsubAnswers
    (fun hmem => hstop (hsub.subset hmem))
    (fun keyStart keyEnd hscan => hscans keyStart keyEnd (hsub.subset hscan)) howner hrest

include hsc hclean hstop hscans hrun in
/-- Until the thread has returned, it can go on, or its client can. -/
lemma exists_feedStep (hover : t.phase.over = false) :
    ∃ e t', e.Advances ∧ FeedStep program parseFloat asUsize t e t' := by
  by_contra hnone
  have hrest : ∀ e t', e.Advances → ¬ FeedStep program parseFloat asUsize t e t' :=
    fun e t' he hstep => hnone ⟨e, t', he, hstep⟩
  have hclient : AtRest (Runner.Step program) Runner.Event.Advances t.client :=
    fun ev client hev hstep => hrest (.inner ev) _ hev (.inner hev.internal hstep)
  have hholds := Feeder.Holds.run hrun
  cases hat : t.phase with
  | feeds =>
      have howns : t.phase.owns = true := by rw [hat]; rfl
      cases hline : takeALine parseFloat asUsize t.stdout t.ikeys t.stats with
      | mk said stdout =>
          cases said with
          | error err =>
              cases err with
              | error err => exact hrest .line _ trivial (.fails hat hline)
              | panic p => exact hrest .line _ trivial (.panics hat hline)
          | ok said =>
              rcases said with _ | ⟨_ | call, ikeys', stats'⟩
              · exact hrest .line _ trivial (.eof hat hline)
              · exact hrest .line _ trivial (.skip hat hline)
              · have halive := alive_of_owns hsc hclean hstop hscans hrun howns
                exact hrest (.own (.sendCall call (.ok ()))) _ trivial (.sendCall hat hline
                  (Runner.step_sendCall call (hholds.of_owns howns).1 halive))
  | waits =>
      have howns : t.phase.owns = true := by rw [hat]; rfl
      obtain ⟨resp, client, hwait⟩ := exists_resp_of_waits hsc hclean hstop hscans hrun hat hclient
      exact hrest (.own (.waitResp (.ok resp))) _ (fun h => by cases h)
        (.waitResp hat (Runner.step_waitResp false (hholds.of_owns howns).1 hwait))
  | stops err =>
      have howns : t.phase.owns = true := by rw [hat]; rfl
      have halive := alive_of_owns hsc hclean hstop hscans hrun howns
      exact hrest (.own (.stop (.ok ()))) _ trivial
        (.stop hat (Runner.step_stop (hholds.of_owns howns).1 halive))
  | stopping err =>
      rw [Feeder.Holds, hat] at hholds
      obtain ⟨resp, client, hwait⟩ :=
        exists_resp_of_stopping hsc hclean hstop hscans hrun hat hclient
      exact hrest (.own (.stopWaits (.ok resp))) _ (fun h => by cases h)
        (.stopWaits hat (Runner.step_stopWaits false hholds.1 hwait))
  | unwinds p =>
      have howns : t.phase.owns = true := by rw [hat]; rfl
      exact hrest (.own .drop) _ trivial (.drop hat (.drop (hholds.of_owns howns).1))
  | returned | panicked =>
      rw [hat] at hover
      cases hover

include hsc hclean hstop hscans hrun in
lemma Feeder.Served.run (htimely : ∀ e ∈ es, e.Timely) :
    t.Served sc (fedOf es) (answersOf es) := by
  refine hrun.invariant (P := fun es t => (∀ e ∈ es, FeedEvent.Timely e) →
    t.Served sc (fedOf es) (answersOf es)) (fun _ => trivial) ?_ htimely
  intro es t e t' hpre ih hstep htimely
  exact (ih fun e' he' => htimely e' (List.mem_append_left _ he')).step hsc hclean hstop hscans hpre
    (htimely e (by simp)) hstep

/-- The driver and the process do not answer a Stop that has been answered. -/
lemma Feeder.Stopped.inner {e : Runner.Event} {client : Runner.ClientProc Process}
    (h : t.Stopped es) (he : e.Internal) :
    Feeder.Stopped { t with client } (es ++ [.inner e]) := by
  intro err hphase
  obtain ⟨hsent, hreceived⟩ := h err hphase
  obtain ⟨hquiet, hquiet'⟩ :=
    @Madkv.internal_events (procOf es) [e] (List.forall_mem_singleton.mpr he)
  have hproc : procOf (es ++ [.inner e]) = procOf es ++ [e] := procOf_concat
  rw [hproc, hquiet, hquiet']
  simpa using ⟨hsent, hreceived⟩

include hsc hclean hstop hscans hrun in
/-- **One step**: what `stop` waits for is the answer to the Stop. -/
lemma Feeder.Stopped.step (h : t.Stopped es)
    (hserved : t.Served sc (fedOf es) (answersOf es)) (htimely : e.Timely)
    (hstep : FeedStep program parseFloat asUsize t e t') : t'.Stopped (es ++ [e]) := by
  have hholds := Feeder.Holds.run hrun
  cases hstep with
  | skip hphase =>
      intro err hret
      rw [hphase] at hret
      cases hret
  | eof | fails | panics | stop | drop =>
      intro err hret
      cases hret
  | @sendCall _ _ _ _ res | @waitResp res =>
      intro err hret
      cases res <;> cases hret
  | inner he => exact h.inner he
  | stopFails hphase hsends =>
      have halive := alive_of_owns hsc hclean hstop hscans hrun (by rw [hphase]; rfl)
      cases hsends with
      | stopFails _ hsend =>
          rw [(Runner.ClientProc.sendCall_eq_error hsend).1] at halive
          cases halive
  | @stopWaits err res client hphase hwaits =>
      rw [Feeder.Holds, hphase] at hholds
      obtain ⟨howner, hsent, hreceived⟩ := hholds
      have hanswers : answersOf es = respond (fedOf es) := by
        rw [Feeder.Served, hphase] at hserved
        cases err with
        | none => exact hserved
        | some e => exact hserved.1
      have hsub := (fed_isPrefix hsc hrun).subset
      have hall : (Runner.receivedOf (procOf es)).length = (fedOf es).length := by
        rw [hreceived, hanswers, (respond_fed hsc hstop hscans hrun).1]
      cases hwaits with
      | stopWaits _ hwait =>
          obtain rfl | rfl := stopWaits_cases (FeedRun.procRun hrun)
            (clean_sent hsc hclean hrun (hsent ▸ List.prefix_rfl)) hsent
            (hreceived.trans hanswers ▸ List.prefix_rfl) (fun hmem => hstop (hsub hmem))
            (fun keyStart keyEnd hscan => hscans keyStart keyEnd (hsub hscan)) hall howner hwait
          · exact fun _ _ => ⟨by simp [hsent], by simp [hreceived]⟩
          · exact absurd rfl htimely

include hsc hclean hstop hscans hrun in
lemma Feeder.Stopped.run (htimely : ∀ e ∈ es, e.Timely) : t.Stopped es := by
  refine hrun.invariant (P := fun es t => (∀ e ∈ es, FeedEvent.Timely e) → t.Stopped es)
    (fun _ _ hret => nomatch hret) ?_ htimely
  intro es t e t' hpre ih hstep htimely
  have hbefore := fun e' he' => htimely e' (List.mem_append_left [e] he')
  exact (ih hbefore).step hsc hclean hstop hscans hpre
    (Feeder.Served.run hsc hclean hstop hscans hpre hbefore) (htimely e (by simp)) hstep

include hrun in
/-- Nothing is sent after the Stop. -/
lemma Feeder.Stopped.sent_isPrefix (h : t.Stopped es) :
    Runner.sentOf (procOf es) <+: fedOf es ++ [.stop] := by
  have hholds := Feeder.Holds.run hrun
  rw [Feeder.Holds] at hholds
  cases hat : t.phase with
  | feeds | waits | stops | unwinds =>
      rw [hat] at hholds
      rw [hholds.2.1]
      exact List.prefix_append _ _
  | panicked p =>
      rw [hat] at hholds
      rw [hholds.2]
      exact List.prefix_append _ _
  | stopping err =>
      rw [hat] at hholds
      rw [hholds.2.1]
  | returned err => rw [(h err hat).1]

include hsc hclean hstop hscans hrun in
/-- The client that the thread has returned from does not wait for another line. -/
lemma not_reads_of_returned (htimely : ∀ e ∈ es, e.Timely) {err : Option RunnerError}
    (hat : t.phase = .returned err) (state : State) : t.client.process ≠ .reads state := by
  have hserved := Feeder.Served.run hsc hclean hstop hscans hrun htimely
  have hstopped := Feeder.Stopped.run hsc hclean hstop hscans hrun htimely
  obtain ⟨hsent, hreceived⟩ := hstopped err hat
  have hcleanSent := clean_sent hsc hclean hrun (hstopped.sent_isPrefix hrun)
  have hanswers : answersOf es = respond (fedOf es) := by
    rw [Feeder.Served, hat] at hserved
    cases err with
    | none => exact hserved
    | some e => exact hserved.1
  have hinv := SessionInv.run (FeedRun.procRun hrun) hcleanSent
  refine hinv.not_reads hcleanSent (le_trans ?_ hinv.driver.received.length_le) ?_ state
  · rw [hsent, hreceived, hanswers, List.length_append, List.length_append,
      (respond_fed hsc hstop hscans hrun).1]
    exact le_rfl
  · rw [hsent]
    exact mapAfter_concat_stop _

include hsc hclean hstop hscans hrun in
/-- The client does not see the end of its input, unless a line makes the thread panic. -/
lemma not_clientEnd (hpanics : ∀ p, sc.ending ≠ .fails (.panic p))
    (htimely : ∀ e ∈ es, e.Timely) (hended : t.client.driver.hasEnded = true) {p : Process}
    {stdin out : Stream} (hend : program.stepEnd t.client.process t.client.stdin p stdin out) :
    False := by
  have hstopped := Feeder.Stopped.run hsc hclean hstop hscans hrun htimely
  have howned : t.client.owner = .dropped := by
    by_contra howner
    exact not_stepEnd (FeedRun.procRun hrun)
      (clean_sent hsc hclean hrun (hstopped.sent_isPrefix hrun)) howner hended hend
  have hholds := Feeder.Holds.run hrun
  have hfollows := Feeder.Follows.run hrun
  rw [← hsc, Feeder.Follows] at hfollows
  rw [Feeder.Holds, howned] at hholds
  cases hat : t.phase with
  | feeds | waits | stops | unwinds | stopping =>
      rw [hat] at hholds
      cases hholds.1
  | panicked p =>
      rw [hat] at hfollows
      rw [hfollows.1] at hpanics
      exact hpanics p rfl
  | returned err =>
      obtain ⟨⟨state, hreads⟩, -⟩ := hend
      exact not_reads_of_returned hsc hclean hstop hscans hrun htimely hat state hreads

include hsc hclean hstop hscans hrun in
/-- **No rounds** at the end of a pipe, unless a line makes the thread panic. -/
lemma advances_of_timely (hpanics : ∀ p, sc.ending ≠ .fails (.panic p))
    (htimely : ∀ e ∈ es, e.Timely) (he : e.Timely)
    (hstep : FeedStep program parseFloat asUsize t e t') : e.Advances := by
  cases hstep with
  | skip | eof | fails | panics | sendCall | waitResp | stop | stopFails | stopWaits | drop =>
      exact he
  | inner hinternal hclient =>
      have hstopped := Feeder.Stopped.run hsc hclean hstop hscans hrun htimely
      have hsent := hstopped.sent_isPrefix hrun
      have hcleanSent := clean_sent hsc hclean hrun hsent
      cases hclient with
      | sendCall | waitResp | stop | stopFails | stopWaits | drop => exact hinternal.elim
      | driver hdriver => exact Runner.advances_of_driverStep hdriver
      | client => trivial
      | spins hdriver hexited hread =>
          exact ((SessionInv.run (FeedRun.procRun hrun) hcleanSent).not_spins hcleanSent
            (replied_sent hsc hstop hscans hrun hsent) hdriver hexited hread).elim
      | clientEnd hended hend =>
          exact (not_clientEnd hsc hclean hstop hscans hrun hpanics htimely hended hend).elim

include hsc hclean hstop hscans hrun in
/-- **The thread comes to rest**, unless a line makes it panic. -/
lemma feeder_acc_timely (hpanics : ∀ p, sc.ending ≠ .fails (.panic p))
    (htimely : ∀ e ∈ es, e.Timely) :
    Acc (fun t' t => Leads (FeedStep program parseFloat asUsize) FeedEvent.Timely t t') t := by
  induction feeder_acc parseFloat asUsize t generalizing es with
  | intro t _ ih =>
      refine ⟨_, ?_⟩
      rintro t' ⟨e, he, hstep⟩
      have hadvances :=
        advances_of_timely hsc hclean hstop hscans hrun hpanics htimely he hstep
      refine ih t' ⟨e, hadvances, hstep⟩ (hrun.snoc hstep) fun e' he' => ?_
      rcases List.mem_append.mp he' with he' | he'
      · exact htimely e' he'
      · exact List.mem_singleton.mp he' ▸ he

include hsc hclean hstop hscans hrun in
/-- Where the thread rests, it has come to the end of the script, and has left its client. -/
lemma ends_of_atRest (htimely : ∀ e ∈ es, e.Timely)
    (hrest : AtRest (FeedStep program parseFloat asUsize) FeedEvent.Advances t) :
    fedOf es = sc.calls ∧ answersOf es = respond sc.calls ∧ t.Ends sc.ending
      ∧ t.Leaves es sc.ending := by
  have hserved := Feeder.Served.run hsc hclean hstop hscans hrun htimely
  have hstopped := Feeder.Stopped.run hsc hclean hstop hscans hrun htimely
  have hholds := Feeder.Holds.run hrun
  have hfollows := Feeder.Follows.run hrun
  rw [← hsc] at hfollows
  rw [Feeder.Served] at hserved
  rw [Feeder.Follows] at hfollows
  rw [Feeder.Holds] at hholds
  cases hat : t.phase with
  | returned err =>
      rw [hat] at hserved hfollows
      have hleaves : Runner.sentOf (procOf es) = fedOf es ++ [.stop]
          ∧ Runner.receivedOf (procOf es) = answersOf es ++ [.stop]
          ∧ program.exited t.client.process = true := by
        obtain ⟨hsent, hreceived⟩ := hstopped err hat
        refine ⟨hsent, hreceived, exited_of_atRest ?_ ?_⟩
        · exact fun ev client hev hstep => hrest (.inner ev) _ hev (.inner hev.internal hstep)
        · exact not_reads_of_returned hsc hclean hstop hscans hrun htimely hat
      cases err with
      | none =>
          obtain ⟨rfl, -⟩ := hfollows
          exact ⟨rfl, hserved, by simp [Feeder.Ends, Feeder.report, hat], hleaves⟩
      | some e =>
          obtain ⟨hanswers, rfl⟩ := hserved
          exact ⟨rfl, hanswers, hat, hleaves⟩
  | panicked p =>
      rw [hat] at hserved hfollows hholds
      obtain ⟨rfl, -⟩ := hfollows
      exact ⟨rfl, hserved, hat, hholds⟩
  | feeds | waits | stops | stopping | unwinds =>
      obtain ⟨e, t', he, hstep⟩ :=
        exists_feedStep hsc hclean hstop hscans hrun (by rw [hat]; rfl)
      exact absurd hstep (hrest e t' he)

/-- There is a run through an output without calls. -/
lemma exists_reportRun {ikeys' : Finset String} {stats' : Perf F}
    (hscript : script parseFloat asUsize ikeys stats (lines output) = ⟨[], .eof ikeys' stats'⟩) :
    ∃ es t, FeedRun program parseFloat asUsize stats ikeys output es t
      ∧ t.report = some (some ⟨1, stats', ikeys'⟩) := by
  obtain ⟨es, t, hrun, hes, hrest⟩ := exists_atRest
    (feeder_acc parseFloat asUsize (Feeder.start program stats ikeys output))
  obtain ⟨-, -, hends, -⟩ := ends_of_atRest hscript.symm
    (fun call hcall => absurd hcall List.not_mem_nil) List.not_mem_nil
    (fun _ _ hscan => absurd hscan List.not_mem_nil) hrun (fun e he => (hes e he).timely) hrest
  exact ⟨es, t, hrun, hends⟩

end Served

/-- **The feeder completes**: if no line gives an empty value or a Scan that ends before its
start, then from any point, as long as no response is waited for too long, every schedule
comes to an end, but for rounds that the client may go after a panic. There the thread has
sent all calls of the script to the reference client, has got the answers to all of them,
and returns as the script ends, with its client stopped, or dropped by a panic. -/
theorem feeder_completes {F : Type} (parseFloat : String → Except RunnerError F) (asUsize : F → ℕ)
    (stats : Perf F) (ikeys : Finset String) (output : Stream) (hkeys : ∀ k ∈ ikeys, IsWord k)
    (hvalues : ∀ text ∈ (lines output).filterMap decode, ¬ EmptyValue (getSegsOfLine text))
    (hscans : InOrderScans (script parseFloat asUsize ikeys stats (lines output)).calls)
    (es : List FeedEvent) (t : Feeder Process F)
    (hrun : FeedRun program parseFloat asUsize stats ikeys output es t)
    (htimely : ∀ e ∈ es, e.Timely) :
    Acc (fun t' t => Leads (FeedStep program parseFloat asUsize) FeedEvent.Advances t t') t
      ∧ ((∀ p, (script parseFloat asUsize ikeys stats (lines output)).ending ≠ .fails (.panic p)) →
        Acc (fun t' t => Leads (FeedStep program parseFloat asUsize) FeedEvent.Timely t t') t)
      ∧ ∀ es' t', Exec (FeedStep program parseFloat asUsize) t es' t' → (∀ e ∈ es', e.Timely) →
        AtRest (FeedStep program parseFloat asUsize) FeedEvent.Advances t' →
        fedOf (es ++ es') = (script parseFloat asUsize ikeys stats (lines output)).calls
          ∧ answersOf (es ++ es')
            = respond (script parseFloat asUsize ikeys stats (lines output)).calls
          ∧ t'.Ends (script parseFloat asUsize ikeys stats (lines output)).ending
          ∧ t'.Leaves (es ++ es')
            (script parseFloat asUsize ikeys stats (lines output)).ending := by
  have hclean : ∀ call ∈ (script parseFloat asUsize ikeys stats (lines output)).calls,
      call.Clean := script_clean hkeys hvalues
  have hstop : .stop ∉ (script parseFloat asUsize ikeys stats (lines output)).calls :=
    stop_notMem_script hkeys
  refine ⟨feeder_acc parseFloat asUsize t, fun hpanics => ?_, fun es' t' hmore htimely' hrest => ?_⟩
  · exact feeder_acc_timely rfl hclean hstop hscans hrun hpanics htimely
  · refine ends_of_atRest rfl hclean hstop hscans (exec_append hrun hmore) (fun e he => ?_) hrest
    exact (List.mem_append.mp he).elim (htimely e) (htimely' e)

theorem feeder_completes_insertion : ∃ (es : List FeedEvent) (t : Feeder Process ℕ),
    FeedRun program noFloats (fun _ => 0) .new ∅ insertion es t
      ∧ answersOf es = respond [.put "t_k" "_f=v_]"]
      ∧ t.report = some (some ⟨1, .new, {"t_k"}⟩)
      ∧ program.exited t.client.process = true := by
  have hscript : script noFloats (fun _ => 0) ∅ (Perf.new (F := ℕ)) (lines insertion)
      = ⟨[.put "t_k" "_f=v_]"], .eof {"t_k"} .new⟩ := rfl
  have hvalues : ∀ text ∈ (lines insertion).filterMap decode,
      ¬ EmptyValue (getSegsOfLine text) := by
    have htexts : (lines insertion).filterMap decode = ["INSERT t k [ f=v ]\n".toList] := rfl
    have hsegs : getSegsOfLine "INSERT t k [ f=v ]\n".toList
        = ["INSERT", "t", "k", "[", "f=v", "]"] := rfl
    rw [htexts, List.forall_mem_singleton, hsegs]
    rintro ⟨kind, -, table, key, hline⟩
    simp at hline
  have hscans : InOrderScans (script noFloats (fun _ => 0) ∅ (Perf.new (F := ℕ))
      (lines insertion)).calls := by
    rw [hscript]
    exact fun keyStart keyEnd hscan => by simp at hscan
  obtain ⟨-, hacc, hends⟩ := feeder_completes noFloats (fun _ => 0) .new ∅ insertion (by simp)
    hvalues hscans [] _ .nil (fun e he => absurd he List.not_mem_nil)
  rw [hscript] at hacc hends
  obtain ⟨es, t, hrun, htimely, hrest⟩ := exists_atRest (hacc fun p hpanic => nomatch hpanic)
  obtain ⟨-, hanswers, hreport, -, -, hexited⟩ := hends es t hrun htimely
    fun e t' he hstep => hrest e t' he.timely hstep
  exact ⟨es, t, hrun, hanswers, hreport, hexited⟩

end Madkv.Bencher
