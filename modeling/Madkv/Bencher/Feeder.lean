import Madkv.Bencher.TranslatedCalls
import Madkv.Refcli.Progress
import Madkv.Runner.LineForms

/-!
The feeder thread of a YCSB driver (`feeder_thread` of `ycsb.rs`).

* `feedALine`: what a line is to the thread. `script`: what a whole output is to it, if
  the client answers every call.
* `Feeder`: the thread with the handle of its client. `FeedStep`: a line is read, or the
  thread, the driver of the handle or the client process goes on.
* `Feeder.report`: what the thread returns.
* `FeedInv`: how far the script has come. `feeder_follows`: whatever the client does, the
  thread follows the script, one call at a time, and its report tells all of it.
-/

namespace Madkv.Bencher

open Words Execution

/-! ### Lines -/

section Lines

variable {F : Type} (parseFloat : String → Except RunnerError F) (asUsize : F → ℕ)

/-- What a line says: the call that it is, if it is one, with the keys inserted and the
numbers recorded so far. -/
def feedALine (text : List Char) (ikeys : Finset String) (stats : Perf F) :
    Except LineEnd (Option KvCall × Finset String × Perf F) :=
  -- skip empty line
  if (trim isWhitespace text).isEmpty then .ok (none, ikeys, stats)
  else do
    let (call, ikeys) ← interpretYcsbCall text ikeys
    match call with
    | some call => .ok (some call, ikeys, stats)
    | none =>
        -- might be a performance reporting line, record the number
        if text.head? = some '[' then do
          let stats ← recordYcsbPerf parseFloat asUsize text stats
          .ok (none, ikeys, stats)
        -- probably not finding the workload profile file
        else if contains (String.ofList text) "No such file" then
          .error (.error (.io (String.ofList text)))
        else .ok (none, ikeys, stats)

/-- Read a line and see what it says. The result is `none` at the end of the output. -/
def takeALine (stdout : Stream) (ikeys : Finset String) (stats : Perf F) :
    Except LineEnd (Option (Option KvCall × Finset String × Perf F)) × Stream :=
  match readLine ⟨stdout, []⟩ with
  | (.error e, r) => (.error (.error e), r.stream)
  | (.ok size, r) =>
      if size = 0 then (.ok none, r.stream)
      else ((feedALine parseFloat asUsize r.buffer ikeys stats).map some, r.stream)

/-- How an output ends. -/
inductive Ending (F : Type) where
  | eof (ikeys : Finset String) (stats : Perf F)
  | fails (e : LineEnd)

/-- The calls of an output, and its end. -/
structure Script (F : Type) where
  calls : List KvCall
  ending : Ending F

/-- With some calls before it. -/
def Script.after (calls : List KvCall) (sc : Script F) : Script F :=
  { sc with calls := calls ++ sc.calls }

/-- What the lines of an output say. -/
def script (ikeys : Finset String) (stats : Perf F) : List Stream → Script F
  | [] => ⟨[], .eof ikeys stats⟩
  | line :: rest =>
      match decode line with
      | none => ⟨[], .fails (.error (.io "stream did not contain valid UTF-8"))⟩
      | some text =>
          match feedALine parseFloat asUsize text ikeys stats with
          | .error e => ⟨[], .fails e⟩
          | .ok (call, ikeys, stats) => (script ikeys stats rest).after call.toList

end Lines

/-! ### The thread -/

/-- The statistics before the first line. -/
def Perf.new {F : Type} [Zero F] : Perf F := ⟨0, 0, ∅, ∅, ∅, ∅, ∅⟩

/-- Where the thread is. The error that it has left its loop with is `none` at the end
of the output. -/
inductive Phase where
  | feeds
  /-- a call has been sent, and its response is waited for -/
  | waits
  | stops (err : Option RunnerError)
  /-- within `stop` of the client -/
  | stopping (err : Option RunnerError)
  | returned (err : Option RunnerError)
  /-- after a panic, with the client still to be dropped -/
  | unwinds (p : Panic)
  | panicked (p : Panic)

/-- The thread, with its client. -/
structure Feeder (P F : Type) where
  phase : Phase
  client : Runner.ClientProc P
  stdout : Stream
  ikeys : Finset String
  stats : Perf F

/-- What the thread returns on success. -/
structure Report (F : Type) where
  merged : ℕ
  stats : Perf F
  ikeys : Finset String

/-- What has been returned, `none` as long as the thread runs. -/
def Feeder.report {P F : Type} (t : Feeder P F) : Option (Option (Report F)) :=
  match t.phase with
  | .returned none => some (some ⟨1, t.stats, t.ikeys⟩)
  | .returned (some _) => some none
  | _ => none

/-- A line, or a step of the handle, its owner being the thread. -/
inductive FeedEvent where
  | line
  | own (e : Runner.Event)
  | inner (e : Runner.Event)

/-- Where the thread goes on after a call to its client, and where it stops. -/
def Phase.next (phase : Phase) {α : Type} : Except RunnerError α → Phase
  | .ok _ => phase
  | .error e => .stops (some e)

section Thread

variable {P F : Type} (prog : Runner.Program P) (parseFloat : String → Except RunnerError F)
  (asUsize : F → ℕ)

/-- The thread before its first line. -/
def Feeder.start (stats : Perf F) (ikeys : Finset String) (stdout : Stream) : Feeder P F :=
  ⟨.feeds, .new prog, stdout, ikeys, stats⟩

/-- A step of the thread, or of the handle by itself. -/
inductive FeedStep : Feeder P F → FeedEvent → Feeder P F → Prop
  | skip {t : Feeder P F} {ikeys : Finset String} {stats : Perf F} {stdout : Stream}
      (hphase : t.phase = .feeds) (h : takeALine parseFloat asUsize t.stdout t.ikeys t.stats
        = (.ok (some (none, ikeys, stats)), stdout)) :
      FeedStep t .line { t with stdout, ikeys, stats }
  | eof {t : Feeder P F} {stdout : Stream} (hphase : t.phase = .feeds)
      (h : takeALine parseFloat asUsize t.stdout t.ikeys t.stats = (.ok none, stdout)) :
      FeedStep t .line { t with stdout, phase := .stops none }
  | fails {t : Feeder P F} {e : RunnerError} {stdout : Stream} (hphase : t.phase = .feeds)
      (h : takeALine parseFloat asUsize t.stdout t.ikeys t.stats = (.error (.error e), stdout)) :
      FeedStep t .line { t with stdout, phase := .stops (some e) }
  | panics {t : Feeder P F} {p : Panic} {stdout : Stream} (hphase : t.phase = .feeds)
      (h : takeALine parseFloat asUsize t.stdout t.ikeys t.stats = (.error (.panic p), stdout)) :
      FeedStep t .line { t with stdout, phase := .unwinds p }
  | sendCall {t : Feeder P F} {call : KvCall} {ikeys : Finset String} {stats : Perf F}
      {stdout : Stream} {res : Except RunnerError Unit} {client : Runner.ClientProc P}
      (hphase : t.phase = .feeds) (h : takeALine parseFloat asUsize t.stdout t.ikeys t.stats
        = (.ok (some (some call, ikeys, stats)), stdout))
      (hsend : Runner.Step prog t.client (.sendCall call res) client) :
      FeedStep t (.own (.sendCall call res))
        ⟨Phase.waits.next res, client, stdout, ikeys, stats⟩
  | waitResp {t : Feeder P F} {res : Except RunnerError KvResp} {client : Runner.ClientProc P}
      (hphase : t.phase = .waits) (hwait : Runner.Step prog t.client (.waitResp res) client) :
      FeedStep t (.own (.waitResp res)) { t with client, phase := Phase.feeds.next res }
  | stop {t : Feeder P F} {err : Option RunnerError} {client : Runner.ClientProc P}
      (hphase : t.phase = .stops err) (hstop : Runner.Step prog t.client (.stop (.ok ())) client) :
      FeedStep t (.own (.stop (.ok ()))) { t with client, phase := .stopping err }
  | stopFails {t : Feeder P F} {err : Option RunnerError} {e : RunnerError}
      {client : Runner.ClientProc P} (hphase : t.phase = .stops err)
      (hstop : Runner.Step prog t.client (.stop (.error e)) client) :
      FeedStep t (.own (.stop (.error e))) { t with client, phase := .returned err }
  | stopWaits {t : Feeder P F} {err : Option RunnerError} {res : Except RunnerError KvResp}
      {client : Runner.ClientProc P} (hphase : t.phase = .stopping err)
      (hwait : Runner.Step prog t.client (.stopWaits res) client) :
      FeedStep t (.own (.stopWaits res)) { t with client, phase := .returned err }
  | drop {t : Feeder P F} {p : Panic} {client : Runner.ClientProc P}
      (hphase : t.phase = .unwinds p) (hdrop : Runner.Step prog t.client .drop client) :
      FeedStep t (.own .drop) { t with client, phase := .panicked p }
  | inner {t : Feeder P F} {e : Runner.Event} {client : Runner.ClientProc P} (he : e.Internal)
      (h : Runner.Step prog t.client e client) : FeedStep t (.inner e) { t with client }

/-- The interleavings of the thread and its client, on an output. -/
abbrev FeedRun (stats : Perf F) (ikeys : Finset String) (output : Stream) :
    List FeedEvent → Feeder P F → Prop :=
  Exec (FeedStep prog parseFloat asUsize) (Feeder.start prog stats ikeys output)

end Thread

/-! ### What the thread has done -/

/-- The call that the thread has sent. -/
@[simp] def FeedEvent.fed : FeedEvent → Option KvCall
  | .own (.sendCall call (.ok _)) => some call
  | _ => none

/-- The response that it has got. -/
@[simp] def FeedEvent.answer : FeedEvent → Option KvResp
  | .own (.waitResp (.ok resp)) => some resp
  | _ => none

/-- What happened to the handle. -/
@[simp] def FeedEvent.proc : FeedEvent → Option Runner.Event
  | .line => none
  | .own e | .inner e => some e

def fedOf (es : List FeedEvent) : List KvCall := es.filterMap FeedEvent.fed

def answersOf (es : List FeedEvent) : List KvResp := es.filterMap FeedEvent.answer

def procOf (es : List FeedEvent) : List Runner.Event := es.filterMap FeedEvent.proc

section Projections

variable {es : List FeedEvent} {e : FeedEvent}

@[simp] lemma fedOf_concat : fedOf (es ++ [e]) = fedOf es ++ e.fed.toList :=
  Runner.filterMap_concat _ _ _

@[simp] lemma answersOf_concat : answersOf (es ++ [e]) = answersOf es ++ e.answer.toList :=
  Runner.filterMap_concat _ _ _

@[simp] lemma procOf_concat : procOf (es ++ [e]) = procOf es ++ e.proc.toList :=
  Runner.filterMap_concat _ _ _

end Projections

/-! ### The lines of the script -/

section Script

variable {F : Type} {parseFloat : String → Except RunnerError F} {asUsize : F → ℕ}
  {stdout stdout' : Stream} {ikeys : Finset String} {stats : Perf F} {sc : Script F}

@[simp] lemma Script.after_after (calls calls' : List KvCall) :
    (sc.after calls').after calls = sc.after (calls ++ calls') := by
  simp [Script.after]

lemma utf8Size_ne_zero {text : List Char} (h : text ≠ []) : utf8Size text ≠ 0 := by
  cases text with
  | nil => exact absurd rfl h
  | cons c text =>
      have := c.utf8Size_pos
      simp [utf8Size]
      omega

variable (parseFloat asUsize) in
/-- The script of what is left, by what the next line says. -/
def scriptFrom (ikeys : Finset String) (stats : Perf F) :
    Except LineEnd (Option (Option KvCall × Finset String × Perf F)) × Stream → Script F
  | (.error e, _) => ⟨[], .fails e⟩
  | (.ok none, _) => ⟨[], .eof ikeys stats⟩
  | (.ok (some (call, ikeys, stats)), stdout) =>
      (script parseFloat asUsize ikeys stats (lines stdout)).after call.toList

/-- **The next line of the script** is the next line read. -/
lemma script_lines : script parseFloat asUsize ikeys stats (lines stdout)
    = scriptFrom parseFloat asUsize ikeys stats
        (takeALine parseFloat asUsize stdout ikeys stats) := by
  by_cases hne : stdout = []
  · subst hne
    rfl
  · rw [lines_eq_cons hne, script]
    cases hdecode : decode (takeLine stdout).1 with
    | none =>
        rw [takeALine, readLine, hdecode]
        rfl
    | some text =>
        have htext : text ≠ [] := by
          rintro rfl
          have hline := decode_eq_some_iff.mp hdecode
          have hlt := length_takeLine_lt hne
          have hsplit := congrArg List.length (takeLine_append stdout)
          rw [hline, List.length_append] at hsplit
          simp [ofText] at hsplit
          omega
        have hread : readLine ⟨stdout, []⟩
            = (.ok (utf8Size text), ⟨(takeLine stdout).2, text⟩) := by
          rw [readLine, hdecode]
          rfl
        rw [takeALine, hread]
        simp only [if_neg (utf8Size_ne_zero htext)]
        cases feedALine parseFloat asUsize text ikeys stats <;> rfl

end Script

/-! ### The invariant -/

section Inv

variable {P F : Type} (parseFloat : String → Except RunnerError F) (asUsize : F → ℕ)

/-- The loop has been left: at the end of the script, or where the client failed. -/
def Feeder.Left (t : Feeder P F) (sc : Script F) (fed : List KvCall) (answers : List KvResp) :
    Option RunnerError → Prop
  | none => sc = ⟨fed, .eof t.ikeys t.stats⟩ ∧ fed.length = answers.length
  | some e => sc = ⟨fed, .fails (.error e)⟩ ∧ fed.length = answers.length
      ∨ fed <+: sc.calls ∧ answers.length ≤ fed.length ∧ fed.length ≤ answers.length + 1
        ∧ ∃ reason, e = .chan reason

/-- The calls sent and the responses got are those of the script up to its next line. -/
def Feeder.Follows (t : Feeder P F) (sc : Script F) (fed : List KvCall) (answers : List KvResp) :
    Prop :=
  match t.phase with
  | .feeds => sc = (script parseFloat asUsize t.ikeys t.stats (lines t.stdout)).after fed
      ∧ fed.length = answers.length
  | .waits => sc = (script parseFloat asUsize t.ikeys t.stats (lines t.stdout)).after fed
      ∧ fed.length = answers.length + 1
  | .stops err | .stopping err | .returned err => t.Left sc fed answers err
  | .unwinds p | .panicked p => sc = ⟨fed, .fails (.panic p)⟩ ∧ fed.length = answers.length

end Inv

section Run

variable {P F : Type} {prog : Runner.Program P} {parseFloat : String → Except RunnerError F}
  {asUsize : F → ℕ} {stats : Perf F} {ikeys : Finset String} {output : Stream}
  {t t' : Feeder P F} {es : List FeedEvent} {e : FeedEvent} {sc : Script F}

/-- **The handle alone** runs as it does for any owner. -/
lemma FeedRun.procRun (h : FeedRun prog parseFloat asUsize stats ikeys output es t) :
    Runner.ProcRun prog (procOf es) t.client := by
  induction h with
  | nil => exact .nil
  | snoc _ hlast ih =>
      rw [procOf_concat]
      cases hlast with
      | skip | eof | fails | panics => simpa using ih
      | sendCall _ _ hstep | waitResp _ hstep | stop _ hstep | stopFails _ hstep
      | stopWaits _ hstep | drop _ hstep | inner _ hstep => exact ih.snoc hstep

/-- What a client fails with is an error of the channels. -/
lemma chan_of_step {c c' : Runner.ClientProc P} {err : RunnerError} {ev : Runner.Event}
    (hev : (∃ call, ev = .sendCall call (.error err)) ∨ ev = .waitResp (.error err))
    (hstep : Runner.Step prog c ev c') : ∃ reason, err = .chan reason := by
  rcases hev with ⟨call, rfl⟩ | rfl
  · cases hstep with
    | sendCall _ hsend =>
        rw [Runner.ClientProc.sendCall] at hsend
        split_ifs at hsend
        · cases hsend
          exact ⟨_, rfl⟩
        · cases hsend
  · cases hstep with
    | waitResp _ hwait =>
        rw [Runner.ClientProc.waitResp] at hwait
        cases hqueue : c.respQueue with
        | cons resp rest =>
            rw [hqueue] at hwait
            cases hwait
        | nil =>
            simp only [hqueue] at hwait
            split_ifs at hwait <;> cases hwait <;> exact ⟨_, rfl⟩

/-- **One step** keeps to the script. -/
lemma Feeder.Follows.step (h : t.Follows parseFloat asUsize sc (fedOf es) (answersOf es))
    (hstep : FeedStep prog parseFloat asUsize t e t') :
    t'.Follows parseFloat asUsize sc (fedOf (es ++ [e])) (answersOf (es ++ [e])) := by
  cases hstep with
  | skip hphase hline =>
      rw [Feeder.Follows, hphase] at h
      rw [script_lines, hline] at h
      simpa [Feeder.Follows, hphase, scriptFrom] using h
  | eof hphase hline =>
      rw [Feeder.Follows, hphase] at h
      rw [script_lines, hline] at h
      simpa [Feeder.Follows, Feeder.Left, scriptFrom, Script.after] using h
  | fails hphase hline =>
      rw [Feeder.Follows, hphase] at h
      rw [script_lines, hline] at h
      refine Or.inl ?_
      simpa [scriptFrom, Script.after] using h
  | panics hphase hline =>
      rw [Feeder.Follows, hphase] at h
      rw [script_lines, hline] at h
      simpa [Feeder.Follows, scriptFrom, Script.after] using h
  | @sendCall call _ _ _ res _ hphase hline hsend =>
      rw [Feeder.Follows, hphase] at h
      rw [script_lines, hline] at h
      obtain ⟨hscript, hlength⟩ := h
      cases res with
      | ok u =>
          refine ⟨?_, ?_⟩
          · simpa [scriptFrom] using hscript
          · simp [hlength]
      | error err =>
          -- the call is not sent
          refine Or.inr ⟨?_, ?_, ?_, chan_of_step (.inl ⟨call, rfl⟩) hsend⟩
          · rw [hscript]
            simp [Script.after]
          · simp [hlength]
          · simp [hlength]
  | @waitResp res _ hphase hwait =>
      rw [Feeder.Follows, hphase] at h
      obtain ⟨hscript, hlength⟩ := h
      cases res with
      | ok resp =>
          refine ⟨?_, ?_⟩
          · simpa using hscript
          · simp [hlength]
      | error err =>
          refine Or.inr ⟨?_, ?_, ?_, chan_of_step (.inr rfl) hwait⟩
          · rw [hscript]
            simp [Script.after]
          · simp [hlength]
          · simp [hlength]
  | stop hphase | stopFails hphase | stopWaits hphase =>
      rw [Feeder.Follows, hphase] at h
      simpa [Feeder.Follows, Feeder.Left] using h
  | drop hphase =>
      rw [Feeder.Follows, hphase] at h
      simpa [Feeder.Follows] using h
  | inner =>
      simpa [Feeder.Follows, Feeder.Left] using h

lemma Feeder.Follows.run (h : FeedRun prog parseFloat asUsize stats ikeys output es t) :
    t.Follows parseFloat asUsize (script parseFloat asUsize ikeys stats (lines output)) (fedOf es)
      (answersOf es) :=
  h.invariant (P := fun es t => t.Follows parseFloat asUsize
      (script parseFloat asUsize ikeys stats (lines output)) (fedOf es) (answersOf es))
    ⟨rfl, rfl⟩ fun _ _ _ _ _ ih hstep => ih.step hstep

/-- At most one call is on its way. -/
lemma Feeder.Follows.oneAtATime {fed : List KvCall} {answers : List KvResp}
    (h : t.Follows parseFloat asUsize sc fed answers) : fed <+: sc.calls
      ∧ answers.length ≤ fed.length ∧ fed.length ≤ answers.length + 1 := by
  have hleft : ∀ err, t.Left sc fed answers err → fed <+: sc.calls
      ∧ answers.length ≤ fed.length ∧ fed.length ≤ answers.length + 1 := by
    intro err hleft
    cases err with
    | none =>
        obtain ⟨rfl, hlength⟩ := hleft
        exact ⟨List.prefix_rfl, hlength.ge, by omega⟩
    | some e =>
        rcases hleft with ⟨rfl, hlength⟩ | ⟨hsub, hle, hlt, -⟩
        · exact ⟨List.prefix_rfl, hlength.ge, by omega⟩
        · exact ⟨hsub, hle, hlt⟩
  rw [Feeder.Follows] at h
  cases hphase : t.phase with
  | feeds =>
      rw [hphase] at h
      obtain ⟨rfl, hlength⟩ := h
      exact ⟨List.prefix_append _ _, hlength.ge, by omega⟩
  | waits =>
      rw [hphase] at h
      obtain ⟨rfl, hlength⟩ := h
      exact ⟨List.prefix_append _ _, by omega, hlength.le⟩
  | stops err | stopping err | returned err =>
      rw [hphase] at h
      exact hleft err h
  | unwinds p | panicked p =>
      rw [hphase] at h
      obtain ⟨rfl, hlength⟩ := h
      exact ⟨List.prefix_rfl, hlength.ge, by omega⟩

lemma feedStep_driver {ev : Runner.DriverEvent} {client : Runner.ClientProc P} (fuel : ℕ)
    (h : t.client.driverStep prog fuel = some (ev, client)) :
    FeedStep prog parseFloat asUsize t (.inner (.driver ev)) { t with client } :=
  .inner trivial (.driver h)

lemma feedStep_client {p : P} {stdin out : Stream}
    (h : prog.step t.client.process t.client.stdin p stdin out) :
    FeedStep prog parseFloat asUsize t (.inner (.client out))
      { t with client := t.client.goOn p stdin out } :=
  .inner trivial (.client h)

end Run

/-! ### What a script says -/

/-- The keys of the Puts among some calls. -/
def putKeys (calls : List KvCall) : Finset String :=
  (calls.filterMap fun
    | .put key _ => some key
    | _ => none).toFinset

section Calls

variable {F : Type} {parseFloat : String → Except RunnerError F} {asUsize : F → ℕ}
  {text : List Char} {ls : List Stream} {ikeys ikeys' : Finset String} {stats stats' : Perf F}
  {call : Option KvCall} {calls : List KvCall}

lemma putKeys_append (calls calls' : List KvCall) :
    putKeys (calls ++ calls') = putKeys calls ∪ putKeys calls' := by
  rw [putKeys, List.filterMap_append, List.toFinset_append, putKeys, putKeys]

lemma Translated.putKeys {segs : List String} (h : Translated segs ikeys call ikeys') :
    ikeys' = ikeys ∪ Bencher.putKeys call.toList := by
  cases h with
  | insert =>
      rw [Finset.insert_eq, Finset.union_comm]
      rfl
  | update | read | scan | other => exact (Finset.union_empty _).symm

/-- A line is translated as `interpret_ycsb_call` does it. -/
lemma feedALine_eq_ok
    (h : feedALine parseFloat asUsize text ikeys stats = .ok (call, ikeys', stats')) :
    interpretYcsbCall text ikeys = .ok (call, ikeys') := by
  rw [feedALine] at h
  by_cases hempty : (trim isWhitespace text).isEmpty = true
  · rw [if_pos hempty] at h
    cases h
    have hsegs : getSegsOfLine text = [] := by
      rw [getSegsOfLine, words_blank (trim_eq_nil_iff.mp (List.isEmpty_iff.mp hempty))]
      rfl
    rw [interpretYcsbCall, hsegs]
  · rw [if_neg hempty] at h
    obtain ⟨⟨call', ikeys''⟩, hcall, h⟩ := Fallible.bind_eq_ok.mp h
    rw [hcall]
    cases call' with
    | some call' =>
        cases h
        rfl
    | none =>
        simp only at h
        split_ifs at h
        · obtain ⟨_, -, h⟩ := Fallible.bind_eq_ok.mp h
          cases h
          rfl
        · cases h
          rfl

/-- **A script that reaches the end** has the calls of its lines, and the keys that they
insert. -/
lemma script_eof (h : script parseFloat asUsize ikeys stats ls = ⟨calls, .eof ikeys' stats'⟩) :
    calls = translate ikeys (ls.filterMap decode) ∧ ikeys' = ikeys ∪ putKeys calls := by
  induction ls generalizing ikeys stats calls with
  | nil =>
      cases h
      exact ⟨rfl, (Finset.union_empty _).symm⟩
  | cons line rest ih =>
      rw [script] at h
      cases hdecode : decode line with
      | none =>
          rw [hdecode] at h
          cases h
      | some text =>
          rw [hdecode] at h
          simp only at h
          cases hfeed : feedALine parseFloat asUsize text ikeys stats with
          | error e =>
              rw [hfeed] at h
              cases h
          | ok out =>
              obtain ⟨call, ikeys₁, stats₁⟩ := out
              rw [hfeed] at h
              have hcall := feedALine_eq_ok hfeed
              obtain ⟨hcalls, hending⟩ := (Script.mk.injEq ..).mp h
              have hscript : script parseFloat asUsize ikeys₁ stats₁ rest
                  = ⟨(script parseFloat asUsize ikeys₁ stats₁ rest).calls, .eof ikeys' stats'⟩ := by
                rw [← hending]
              obtain ⟨hrest, hkeys⟩ := ih hscript
              rw [← hcalls, List.filterMap_cons_some hdecode, translate, hcall]
              refine ⟨congrArg (call.toList ++ ·) hrest, ?_⟩
              rw [hkeys, (interpretYcsbCall_eq_ok_iff.mp hcall).putKeys, putKeys_append,
                Finset.union_assoc]

end Calls

/-- **What a feeder does**: whatever the client process does, the calls that the thread has
sent are the first of the script of the output, and all but one have been answered. A report
comes only after the whole output, with all of its calls answered, and with the keys that
they insert. Without a report the thread has returned for a line that fails, or for an error
of the channels to its client. -/
theorem feeder_follows {P F : Type} (prog : Runner.Program P)
    (parseFloat : String → Except RunnerError F) (asUsize : F → ℕ) (stats : Perf F)
    (ikeys : Finset String) (output : Stream) (es : List FeedEvent) (t : Feeder P F)
    (hrun : FeedRun prog parseFloat asUsize stats ikeys output es t) :
    fedOf es <+: (script parseFloat asUsize ikeys stats (lines output)).calls
      ∧ (answersOf es).length ≤ (fedOf es).length ∧ (fedOf es).length ≤ (answersOf es).length + 1
      ∧ (∀ report, t.report = some (some report) →
        fedOf es = translate ikeys ((lines output).filterMap decode)
          ∧ (answersOf es).length = (fedOf es).length
          ∧ (script parseFloat asUsize ikeys stats (lines output)).ending
            = .eof report.ikeys report.stats
          ∧ report.ikeys = ikeys ∪ putKeys (fedOf es) ∧ report.merged = 1)
      ∧ (t.report = some none →
        (∃ e, (script parseFloat asUsize ikeys stats (lines output)).ending = .fails (.error e))
          ∨ ∃ reason, t.phase = .returned (some (.chan reason))) := by
  have hfollows := Feeder.Follows.run hrun
  obtain ⟨hsub, hle, hlt⟩ := hfollows.oneAtATime
  refine ⟨hsub, hle, hlt, fun report hreport => ?_, fun hreport => ?_⟩
  · rw [Feeder.Follows] at hfollows
    rw [Feeder.report] at hreport
    split at hreport
    · rename_i hphase
      rw [hphase] at hfollows
      obtain ⟨hscript, hlength⟩ := hfollows
      cases hreport
      obtain ⟨hcalls, hkeys⟩ := script_eof hscript
      exact ⟨hcalls, hlength.symm, by rw [hscript], hkeys, rfl⟩
    · cases hreport
    · cases hreport
  · rw [Feeder.Follows] at hfollows
    rw [Feeder.report] at hreport
    split at hreport
    · cases hreport
    · rename_i e hphase
      rw [hphase] at hfollows
      rcases hfollows with ⟨hscript, -⟩ | ⟨-, -, -, reason, rfl⟩
      · exact .inl ⟨e, by rw [hscript]⟩
      · exact .inr ⟨reason, hphase⟩
    · cases hreport

/-! ### An output with one insertion -/

/-- A reader of numbers that knows none. -/
def noFloats {F : Type} (_ : String) : Except RunnerError F :=
  .error (.parse "invalid float literal")

def insertion : Stream := ofText "INSERT t k [ f=v ]\n".toList

/-- The reference client answers the Put, and then the Stop. -/
lemma exists_insertionRun {F : Type} (stats : Perf F) : ∃ es t,
    FeedRun Refcli.program noFloats (fun _ => 0) stats ∅ insertion es t
      ∧ t.report = some (some ⟨1, stats, {"t_k"}⟩) := by
  have htake : takeALine noFloats (fun _ => 0) insertion ∅ stats
      = (.ok (some (some (.put "t_k" "_f=v_]"), {"t_k"}, stats)), []) := rfl
  have hstart : FeedRun Refcli.program noFloats (fun _ => 0) stats ∅ insertion [] _ := .nil
  have hcall := hstart.snoc (.sendCall rfl htake (Runner.step_sendCall _ rfl rfl))
  have hreceives := hcall.snoc (feedStep_driver 0 rfl)
  have hwrites := hreceives.snoc (feedStep_driver 0 rfl)
  have hhandled := hwrites.snoc (feedStep_client ⟨1, rfl⟩)
  have hline := hhandled.snoc (feedStep_client ⟨0, rfl⟩)
  have hreads := hline.snoc (feedStep_driver 1 rfl)
  have hsends := hreads.snoc (feedStep_driver 0 rfl)
  have hnext := hsends.snoc (feedStep_client ⟨0, rfl⟩)
  have hwait := hnext.snoc (.waitResp rfl (Runner.step_waitResp false rfl rfl))
  -- the end of the output, and the Stop
  have heof := hwait.snoc (.eof rfl rfl)
  have hstop := heof.snoc (.stop rfl (Runner.step_stop rfl rfl))
  have hreceives₂ := hstop.snoc (feedStep_driver 0 rfl)
  have hwrites₂ := hreceives₂.snoc (feedStep_driver 0 rfl)
  have hhandled₂ := hwrites₂.snoc (feedStep_client ⟨1, rfl⟩)
  have hline₂ := hhandled₂.snoc (feedStep_client ⟨0, rfl⟩)
  have hreads₂ := hline₂.snoc (feedStep_driver 1 rfl)
  have hsends₂ := hreads₂.snoc (feedStep_driver 0 rfl)
  exact ⟨_, _, hsends₂.snoc (.stopWaits rfl (Runner.step_stopWaits false rfl rfl)), rfl⟩

theorem feeder_follows_insertion : ∃ (es : List FeedEvent) (t : Feeder Refcli.Process ℕ),
    t.report = some (some ⟨1, .new, {"t_k"}⟩)
      ∧ fedOf es = translate ∅ ((lines insertion).filterMap decode)
      ∧ (answersOf es).length = (fedOf es).length := by
  obtain ⟨es, t, hrun, hreport⟩ := exists_insertionRun (Perf.new (F := ℕ))
  obtain ⟨-, -, -, hfollows, -⟩ :=
    feeder_follows Refcli.program noFloats (fun _ => 0) .new ∅ insertion es t hrun
  obtain ⟨hfed, hanswers, -⟩ := hfollows _ hreport
  exact ⟨es, t, hreport, hfed, hanswers⟩

end Madkv.Bencher
