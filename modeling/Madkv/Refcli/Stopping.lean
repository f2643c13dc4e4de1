import Madkv.Refcli.Progress

/-!
Stopping the reference client.

* `InOrderScans`: the ranges of the Scans do not start past their ends, so that the
  reference client does not panic. `mapAfter_eq_none`: then it exits on a Stop only.
* `StopInv`: `stop` sends its Stop after all other calls.
* `stop_session`: `stop` returns `Ok` iff all responses had been received before it.
* `reports_session`: the driver thread prints no error, whenever the owner goes.
-/

namespace Madkv

open Execution Words Runner Replies Refcli

/-- No Scan starts past its end. -/
def InOrderScans (calls : List KvCall) : Prop :=
  ∀ keyStart keyEnd, .scan keyStart keyEnd ∈ calls → keyStart ≤ keyEnd

section Exits

variable {calls : List KvCall} {call : KvCall} {state state' : State} {resp : KvResp}

lemma handleKvCall_stop_iff (h : handleKvCall call state = some (resp, state')) :
    resp = .stop ↔ call = .stop := by
  cases call with
  | scan keyStart keyEnd =>
      obtain ⟨entries, -, heq⟩ := Option.map_eq_some_iff.mp h
      cases heq
      simp
  | stop =>
      cases h
      simp
  | put | swap | get | delete =>
      cases h
      simp

lemma answer_eq_exit (h : answer state call = some (resp, none)) : call = .stop := by
  obtain ⟨⟨resp', state'⟩, hhandle, heq⟩ := Option.map_eq_some_iff.mp h
  obtain ⟨rfl, hafter⟩ := Prod.mk.inj heq
  rw [afterResp] at hafter
  split_ifs at hafter with hresp
  exact (handleKvCall_stop_iff hhandle).mp hresp

/-- The reference client exits on a Stop, unless it panics. -/
lemma mapAfter_eq_none (h : mapAfter calls = none) (hscans : InOrderScans calls) :
    .stop ∈ calls := by
  obtain ⟨pre, call, rest, state, rfl, -, hpanics | ⟨resp, hexits⟩⟩ := exists_ending h
  · rw [answer, Option.map_eq_none_iff] at hpanics
    obtain ⟨-, keyStart, keyEnd, rfl, hlt⟩ := handleKvCall_eq_none_iff.mp hpanics
    exact absurd hlt (not_lt.mpr (hscans keyStart keyEnd (by simp)))
  · rw [answer_eq_exit hexits]
    simp

/-- The reference client exits on a Stop, unless a call is left without a response. -/
lemma stop_mem_of_replied (h : mapAfter calls = none)
    (hall : (respond calls).length = calls.length) : .stop ∈ calls := by
  obtain ⟨pre, call, rest, state, rfl, hpre, hpanics | ⟨resp, hexits⟩⟩ := exists_ending h
  · have hsub : pre ++ [call] <+: pre ++ call :: rest := ⟨rest, by simp⟩
    have hlength := length_replies_of_isPrefix hsub hall
    have hle := length_replies_le answer (some ∅) pre
    rw [replies_append, hpre, replies_cons_of_none hpanics, List.append_nil, List.length_append,
      List.length_singleton] at hlength
    omega
  · rw [answer_eq_exit hexits]
    simp

lemma mapAfter_concat_stop (calls : List KvCall) : mapAfter (calls ++ [.stop]) = none := by
  cases hmap : mapAfter calls with
  | some state => exact mapAfter_concat hmap .stop
  | none =>
      rw [mapAfter] at hmap
      rw [mapAfter, after_append, hmap, after_none]

/-- The responses to calls without a Stop, and then one. -/
lemma respond_concat_stop (hstop : .stop ∉ calls) (hscans : InOrderScans calls) :
    (respond calls).length = calls.length
      ∧ respond (calls ++ [.stop]) = respond calls ++ [.stop] := by
  cases hmap : mapAfter calls with
  | none => exact absurd (mapAfter_eq_none hmap hscans) hstop
  | some state =>
      refine ⟨length_replies_of_alive fun hnone => ?_, respond_concat hmap .stop⟩
      rw [mapAfter] at hmap
      rw [hmap] at hnone
      cases hnone

/-- The response that answers a Stop in its place. -/
lemma respond_stop_iff {n : ℕ} (h : (respond calls)[n]? = some resp) :
    resp = .stop ↔ calls[n]? = some .stop := by
  obtain ⟨call, state, next, hcall, -, hanswer⟩ := exists_of_getElem? h
  obtain ⟨⟨resp', state'⟩, hhandle, heq⟩ := Option.map_eq_some_iff.mp hanswer
  cases heq
  rw [handleKvCall_stop_iff hhandle, hcall, Option.some.injEq]

end Exits

section Alive

variable {c : Runner.ClientProc Process} {es : List Runner.Event} (h : ProcRun program es c)
  (hclean : ∀ call ∈ sentOf es, call.Clean) (howner : c.owner ≠ .dropped)
  (hstop : .stop ∉ sentOf es) (hscans : InOrderScans (sentOf es))

include h hclean howner hstop hscans

/-- **The driver stays in its loop** as long as no Stop is sent. -/
lemma alive_of_session : c.driver.hasEnded = false := by
  have hsession := SessionInv.run h hclean
  rw [← Bool.not_eq_true]
  intro hended
  rcases EndInv.run h hclean hended with hdropped | ⟨hexited, -⟩
  · exact howner hdropped
  · -- the reference client has exited, so it has been stopped
    have hsub := hsession.driver.asked.subset
    have hmem := mapAfter_eq_none (hsession.of_exited hexited).2 fun keyStart keyEnd hscan =>
      hscans keyStart keyEnd (hsub hscan)
    exact hstop (hsub hmem)

/-- **At rest a response is there** for each call that has not got its one. -/
lemma exists_resp_of_session (hrest : AtRest (Step program) Runner.Event.Advances c)
    (hlt : (receivedOf es).length < (sentOf es).length) :
    ∃ resp rest, c.respQueue = resp :: rest := by
  have hall := (SessionInv.run h hclean).respond_of_atRest (EndInv.run h hclean) hclean howner hrest
  have hlength := congrArg List.length hall
  rw [(respond_concat_stop hstop hscans).1, List.length_append] at hlength
  cases hqueue : c.respQueue with
  | nil =>
      rw [hqueue, List.length_nil] at hlength
      omega
  | cons resp rest => exact ⟨resp, rest, rfl⟩

end Alive

/-- What has been received when the Stop of `stop` has been sent. -/
def StopInv (c : Runner.ClientProc Process) (es : List Runner.Event) : Prop :=
  c.owner = .stopping → ∃ calls, sentOf es = calls ++ [.stop] ∧ receivedOf es <+: respond calls

/-- The driver knows of the Stop that it has taken, and an error that it would print is
one of the process after it. -/
structure ReportInv (c : Runner.ClientProc Process) (es : List Runner.Event) : Prop where
  stopped : .stop ∈ askedOf es ∨ c.driver = .writes .stop → c.stopped = true
  reports : c.reports = none

section Inv

variable {c c' : Runner.ClientProc Process} {es : List Runner.Event} {e : Runner.Event}

/-- **Every step** keeps it. -/
lemma StopInv.step (h : StopInv c es) (hinv : SessionInv c es)
    (hclean : ∀ call ∈ sentOf es, call.Clean) (hstep : Step program c e c') :
    StopInv c' (es ++ [e]) := by
  intro howner'
  cases hstep.cases with
  | owner _ howner =>
      cases howner with
      | stays | drops => cases howner'
      | stopping =>
          exact ⟨sentOf es, by simp, by simpa using hinv.driver.received.trans (hinv.read hclean)⟩
  | driver hdriver =>
      have hsame : c.owner = .stopping := by cases hdriver <;> exact howner'
      obtain ⟨calls, hsent, hreceived⟩ := h hsame
      exact ⟨calls, by simpa using hsent, by simpa using hreceived⟩
  | spins | client | clientEnd =>
      obtain ⟨calls, hsent, hreceived⟩ := h howner'
      exact ⟨calls, by simpa using hsent, by simpa using hreceived⟩

lemma StopInv.run (h : ProcRun program es c) (hclean : ∀ call ∈ sentOf es, call.Clean) :
    StopInv c es :=
  session_induction (fun howner => nomatch howner)
    (fun hpre hclean ih hstep => ih.step (SessionInv.run hpre hclean) hclean hstep) h hclean

/-- A step that leaves the driver alone. -/
lemma ReportInv.of_same (h : ReportInv c es) (hdriver : c'.driver = c.driver)
    (hstopped : c'.stopped = c.stopped) (hasked : e.asked = none) : ReportInv c' (es ++ [e]) := by
  refine ⟨?_, ?_⟩
  · rw [askedOf_concat, hasked, hdriver, hstopped]
    simpa using h.stopped
  · rw [Runner.ClientProc.reports, hdriver, hstopped]
    exact h.reports

/-- **Every step** keeps it. -/
lemma ReportInv.step (h : ReportInv c es) (hinv : SessionInv c es)
    (hclean : ∀ call ∈ sentOf es, call.Clean) (hstep : Step program c e c') :
    ReportInv c' (es ++ [e]) := by
  have hstopped := h.stopped
  cases hstep.cases with
  | owner hinternal => exact h.of_same rfl rfl (Runner.Event.quiet_of_owner hinternal).1
  | spins | client | clientEnd => exact h.of_same rfl rfl rfl
  | driver hdriver =>
      cases hdriver with
      | @receives call callQueue hd hqueue =>
          refine ⟨?_, rfl⟩
          rintro (hasked | hcall)
          · have hmem : .stop ∈ askedOf es := by simpa using hasked
            simp [hstopped (Or.inl hmem)]
          · cases hcall
            simp
      | @writes call hd hlive =>
          refine ⟨?_, rfl⟩
          rintro (hasked | hcall)
          · rw [askedOf_concat, List.mem_append] at hasked
            rcases hasked with hasked | hasked
            · exact hstopped (Or.inl hasked)
            · obtain rfl : KvCall.stop = call := by simpa using hasked
              exact hstopped (Or.inr hd)
          · cases hcall
      | reads hd | sends hd =>
          refine ⟨?_, rfl⟩
          rintro (hasked | hcall)
          · exact hstopped (Or.inl (by simpa using hasked))
          · cases hcall
      | unowned hd | unheard hd =>
          refine ⟨?_, rfl⟩
          rintro (hasked | hcall)
          · exact hstopped (Or.inl (by simpa using hasked))
          · cases hcall
      | garbled hd hread => exact (hinv.not_garbled hclean hd hread).elim
      | broken hd hexited =>
          -- all it was asked has a response, so that it exited on a Stop that the driver had taken
          obtain ⟨hwritten, hmap⟩ := hinv.of_exited hexited
          have hread := hinv.driver.read
          rw [hwritten, answers_writeResponses (SessionInv.respond_clean hclean hinv.driver.asked),
            List.prefix_map_iff_of_injective (Option.some_injective _)] at hread
          have hturn := hinv.driver.inTurn
          rw [hd] at hturn
          have hall : (respond (askedOf es)).length = (askedOf es).length :=
            (length_replies_le _ _ _).antisymm (hturn.le.trans hread.length_le)
          have htaken : c.stopped = true := hstopped (Or.inl (stop_mem_of_replied hmap hall))
          refine ⟨fun _ => htaken, ?_⟩
          show (if c.stopped then none else some brokenPipe) = none
          rw [if_pos htaken]

end Inv

section Stop

variable {c c' : Runner.ClientProc Process} {es : List Runner.Event} {calls : List KvCall}
  (h : ProcRun program es c) (hclean : ∀ call ∈ sentOf es, call.Clean)
  (hsent : sentOf es = calls ++ [.stop]) (hreceived : receivedOf es <+: respond calls)
  (hstop : .stop ∉ calls) (hscans : InOrderScans calls)

include h hclean hsent hreceived hstop hscans

/-- The response that comes to `stop` is the one after those received. -/
lemma stopResult_iff {late : Bool} {resp : KvResp} (hwait : c.waitResp late = some (.ok resp, c')) :
    Runner.ClientProc.stopResult (.ok resp) = .ok () ↔ (receivedOf es).length = calls.length := by
  have hinv := SessionInv.run h hclean
  obtain ⟨hqueue, -⟩ := Runner.ClientProc.waitResp_eq_ok hwait
  obtain ⟨_, resps, _, _, hread⟩ := hinv.driver.inHand
  have hnext : (respond (sentOf es))[(receivedOf es).length]? = some resp := by
    obtain ⟨rest, hrest⟩ := hinv.read hclean
    rw [← hrest, hread, hqueue]
    simp
  have hresult : Runner.ClientProc.stopResult (.ok resp) = .ok () ↔ resp = .stop := by
    cases resp <;> simp [Runner.ClientProc.stopResult]
  have hle : (receivedOf es).length ≤ calls.length := by
    rw [← (respond_concat_stop hstop hscans).1]
    exact hreceived.length_le
  rw [hresult, respond_stop_iff hnext, hsent]
  constructor
  · intro hcall
    by_contra hne
    rw [List.getElem?_append_left (by omega)] at hcall
    exact hstop (List.mem_of_getElem? hcall)
  · intro heq
    rw [heq, List.getElem?_concat_length]

/-- With all other responses received, `stop` gets that to its Stop, unless the time for it
has passed. -/
lemma stopWaits_cases {late : Bool} {res : Except RunnerError KvResp}
    (hall : (receivedOf es).length = calls.length) (howner : c.owner = .stopping)
    (hwait : c.waitResp late = some (res, c')) :
    res = .ok .stop ∨ res = .error Runner.timeoutError := by
  cases res with
  | ok resp =>
      have hok := (stopResult_iff h hclean hsent hreceived hstop hscans hwait).mpr hall
      cases resp <;> first | exact .inl rfl | cases hok
  | error err =>
      obtain ⟨hqueue, -⟩ := Runner.ClientProc.waitResp_eq_error hwait
      rcases Runner.ClientProc.waitResp_error_cases hwait with hended | rfl
      · -- the process would have exited before its Stop
        exfalso
        have hinv := SessionInv.run h hclean
        rcases EndInv.run h hclean hended with hdropped | ⟨hexited, hread, hlength⟩
        · rw [howner] at hdropped
          cases hdropped
        · rw [hread, hqueue, List.append_nil, hall] at hlength
          have hasked := hinv.driver.asked
          rw [hsent] at hasked
          have heq : askedOf es = calls :=
            (List.prefix_of_prefix_length_le hasked (List.prefix_append calls _)
              hlength.ge).eq_of_length hlength.symm
          have hmap := (hinv.of_exited hexited).2
          rw [heq] at hmap
          exact hstop (mapAfter_eq_none hmap hscans)
      · exact .inr rfl

/-- One comes, once the driver and the process rest. -/
lemma exists_stopResp (howner : c.owner = .stopping)
    (hrest : AtRest (Step program) Runner.Event.Advances c) :
    ∃ resp c', c.waitResp false = some (.ok resp, c') := by
  obtain ⟨hlength, hrespond⟩ := respond_concat_stop hstop hscans
  have hall := (SessionInv.run h hclean).respond_of_atRest (EndInv.run h hclean) hclean
    (by rw [howner]; decide) hrest
  have hcount := congrArg List.length hall
  rw [hsent, hrespond, List.length_append, List.length_append, hlength, List.length_singleton]
    at hcount
  have hle : (receivedOf es).length ≤ calls.length := hlength ▸ hreceived.length_le
  cases hqueue : c.respQueue with
  | nil =>
      rw [hqueue, List.length_nil] at hcount
      omega
  | cons resp respQueue =>
      refine ⟨resp, { c with respQueue }, ?_⟩
      rw [Runner.ClientProc.waitResp, hqueue]

end Stop

lemma exists_stoppingRun : ∃ c, ProcRun program (putEvents ++ [.stop (.ok ())]) c
    ∧ c.owner = .stopping := by
  obtain ⟨c, hrun, howner, hlive⟩ := exists_putRun
  exact ⟨_, hrun.snoc (step_stop howner hlive), rfl⟩

lemma clean_stopping : ∀ call ∈ sentOf (putEvents ++ [.stop (.ok ())]), call.Clean := by
  intro call hcall
  rw [sentOf_concat] at hcall
  rcases List.mem_append.mp hcall with hcall | hcall
  · exact clean_putEvents call hcall
  · obtain rfl : call = .stop := by simpa using hcall
    trivial

/-- **Nothing to report**: in a session with the reference client the driver thread
never prints an error, also when the owner goes before the responses have come. -/
theorem reports_session (es : List Runner.Event) (c : Runner.ClientProc Process)
    (h : ProcRun program es c) (hclean : ∀ call ∈ sentOf es, call.Clean) : c.reports = none :=
  (session_induction (I := ReportInv) ⟨by simp [askedOf, Runner.ClientProc.new], rfl⟩
    (fun hpre hclean ih hstep => ih.step (SessionInv.run hpre hclean) hclean hstep) h
    hclean).reports

theorem reports_session_early : ∃ c : Runner.ClientProc Process,
    ProcRun program (putEvents ++ [.stop (.ok ())]) c ∧ c.reports = none := by
  obtain ⟨c, hrun, -⟩ := exists_stoppingRun
  exact ⟨c, hrun, reports_session _ c hrun clean_stopping⟩

end Madkv
