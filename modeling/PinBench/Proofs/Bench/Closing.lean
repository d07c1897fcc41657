import PinBench.Proofs.Bench.Mirror
import PinBench.Proofs.Bench.Recording
import PinBench.Proofs.Jtag.Leftover

/-! What is open after a run.  A bench shuts down once: its first run, or a shutdown before it, lets
go of every client and ends the recording.  It can be run again, and then the servers serve clients
again, who stay attached when that run ends.  The recording stays as it was (`run_closes_once`). -/

namespace PinBench

theorem Net.Listener.attached_detach (l : Listener) : l.detach.attached = none := by
  unfold detach
  split
  · rfl
  · assumption

/-- A step that ends a session serves nobody afterwards. -/
theorem Jtag.Server.attached_of_step {s : Server} {cycle : Nat} {tdo : Bool}
    (h : (s.step cycle tdo).lastStatus ≠ .success) : (s.step cycle tdo).listener.attached = none := by
  have hstatus : (s.serve tdo).2 ≠ .success := h
  show (s.serve tdo).1.listener.attached = none
  cases s.serves tdo with
  | vacant _ hserve =>
    rw [hserve] at hstatus
    exact absurd rfl hstatus
  | unwritten hattached hflush hfailed hserve =>
    rw [hserve]
    have hcases := flush_cases hattached
    rw [hflush] at hcases
    cases hcases with
    | taken => exact absurd rfl hfailed
    | lost => exact Net.Listener.attached_detach _
  | unread _ _ hattached hfetch hfailed hserve =>
    rw [hserve]
    have hcases := fetch_cases hattached
    rw [hfetch] at hcases
    cases hcases with
    | held | waiting | loaded => exact absurd rfl hfailed
    | ended => exact Net.Listener.attached_detach _
  | clocked _ _ _ _ hattached hserve =>
    rw [hserve] at hstatus ⊢
    have hcases := clock_cases hattached tdo
    generalize Server.clock _ tdo = clocked at hcases hstatus
    cases hcases with
    | quiet | replied => exact absurd rfl hstatus
    | lost => exact Net.Listener.attached_detach _

namespace Bench

variable {M : Type} [HardwareModel M] {around : Surroundings} {config : Config}
  {allocation : Gpio.Allocation} {f : Fixture M} {b c d : Bench M} {schedule : Schedule}
  {n k fuel last : Nat} {cause : Cause}

/-- The connection that one of the servers serves, if it serves one. -/
def served? (b : Bench M) (transport : Transport) : Option Net.Connection :=
  (b.listener? transport).bind (·.attached)

/-- `c` is what `b` has become by what its clients did and by `k` calls that shut it down, each
of them a run or a shutdown of its own. -/
inductive Past (b : Bench M) : Nat → Bench M → Prop where
  | start : Past b 0 b
  | clients {k : Nat} {c : Bench M} (h : Past b k c)
      (actions : List (Transport × Net.ClientAction)) : Past b k (c.actAll actions)
  | shutdown {k : Nat} {c : Bench M} (h : Past b k c) : Past b (k + 1) c.shutdown
  | run {k n fuel next : Nat} {c d : Bench M} {schedule : Schedule} {report : Report}
      (h : Past b k c) (hrun : run schedule n c fuel = some (report, d, next)) :
      Past b (k + 1) d

/-! ### Shutting down -/

omit [HardwareModel M] in
/-- The first shutdown lets go of every client. -/
theorem served_shutdown (h : b.down = false) (transport : Transport) :
    b.shutdown.served? transport = none := by
  rw [shutdown, if_neg (by simp [h])]
  cases transport with
  | jtag =>
    cases hprobe : b.probe with
    | none => simp [served?, listener?]
    | some p => exact Net.Listener.attached_detach p.server.listener
  | telemetry =>
    cases hrelay : b.relay with
    | none => simp [served?, listener?]
    | some m => exact Net.Listener.attached_detach m.endpoint.flush.listener

omit [HardwareModel M] in
theorem shutdown_of_down (h : b.down = true) : b.shutdown = b := if_pos h

omit [HardwareModel M] in
theorem down_shutdown (b : Bench M) : b.shutdown.down = true := by
  cases hdown : b.down with
  | true => rw [shutdown_of_down hdown, hdown]
  | false => simp [shutdown, hdown]

omit [HardwareModel M] in
theorem recorder_shutdown (h : b.recording = false) : b.shutdown.recorder = b.recorder := by
  unfold shutdown
  split
  · rfl
  · cases hrecorder : b.recorder with
    | none => rfl
    | some r =>
      have hclosed : r.isOpen = false := by simpa [recording, hrecorder] using h
      simp [Wave.Recorder.close, ← hclosed]

omit [HardwareModel M] in
theorem recording_shutdown (h : b.down = true → b.recording = false) :
    b.shutdown.recording = false := by
  cases hdown : b.down with
  | true => rw [shutdown_of_down hdown, h hdown]
  | false =>
    cases hrecorder : b.recorder <;>
      simp [shutdown, hdown, recording, hrecorder, Wave.Recorder.close]

/-! ### One iteration -/

theorem midway_down (b : Bench M) (arrivals : Arrivals) :
    (b.midway arrivals).1.down = b.down := by
  obtain ⟨_, _, _, _, _, _, hsettled⟩ := settled_eq b arrivals
  obtain ⟨_, _, _, _, _, hexchange⟩ := exchange_frame (b.settled arrivals)
  show (b.settled arrivals).exchange.1.down = b.down
  rw [hexchange, hsettled]

/-- What becomes of a bench in an iteration is what it is when it looks for a cause to end, or that
and the clock's next level. -/
theorem turn_cases (b : Bench M) (arrivals : Arrivals) :
    (b.turn arrivals).1 =
        { (b.midway arrivals).1 with time := (b.midway arrivals).1.time.finish } ∨
      (b.turn arrivals).1 = (b.midway arrivals).1.advance := by
  cases hcause : (b.midway arrivals).1.cause? arrivals.stop (b.midway arrivals).2 with
  | none => exact .inr (by rw [turn_of_none hcause])
  | some cause => exact .inl (by rw [turn_of_cause hcause])

theorem turn_down (b : Bench M) (arrivals : Arrivals) : (b.turn arrivals).1.down = b.down := by
  obtain ⟨_, _, hadvance, -⟩ := advance_eq (b.midway arrivals).1
  rcases b.turn_cases arrivals with hturn | hturn
  · rw [hturn]
    exact midway_down b arrivals
  · rw [hturn, hadvance]
    exact midway_down b arrivals

/-- A recording that has ended takes no samples. -/
theorem midway_recorder_of_closed (h : b.recording = false) (arrivals : Arrivals) :
    (b.midway arrivals).1.recorder = b.recorder := by
  rw [midway_recorder]
  cases hrecorder : b.recorder with
  | none => rfl
  | some r =>
    have hclosed : r.isOpen = false := by simpa [recording, hrecorder] using h
    simp [Wave.Recorder.sample, hclosed]

theorem turn_recorder_of_closed (h : b.recording = false) (arrivals : Arrivals) :
    (b.turn arrivals).1.recorder = b.recorder := by
  rcases b.turn_cases arrivals with hturn | hturn
  · rw [hturn]
    exact midway_recorder_of_closed h arrivals
  · rw [hturn, advance_recorder]
    exact midway_recorder_of_closed h arrivals

/-- If the debugger ends the run, it is gone. -/
theorem served_of_request (h : b.tickProbe.2 ≠ none) : b.tickProbe.1.served? .jtag = none := by
  revert h
  unfold tickProbe
  split
  · split
    · rename_i p _ _
      unfold Jtag.Probe.tick
      cases p.gate.cycle? b.time.now with
      | none => exact fun h => absurd rfl h
      | some cycle =>
        intro h
        refine Jtag.Server.attached_of_step fun hstatus => h ?_
        simp [hstatus, Cause.ofStatus?]
    · exact fun h => absurd rfl h
  · exact fun h => absurd rfl h

theorem midway_served_of_request {arrivals : Arrivals} (h : (b.midway arrivals).2 ≠ none) :
    (b.midway arrivals).1.served? .jtag = none := by
  obtain ⟨_, _, hrelay, -⟩ := tickRelay_eq (b.settled arrivals).tickSerial.tickProbe.1
  have hprobe : (b.midway arrivals).1.probe = (b.settled arrivals).tickSerial.tickProbe.1.probe := by
    show (b.settled arrivals).tickSerial.tickProbe.1.tickRelay.probe = _
    rw [hrelay]
  rw [served?, listener?, hprobe]
  exact served_of_request (b := (b.settled arrivals).tickSerial) h

/-- The debugger is at fault only if the probe says so. -/
theorem request_of_cause {stop : Bool} {request : Option Cause}
    (h : b.cause? stop request = some cause)
    (hcause : cause = .jtagDisconnected ∨ cause = .jtagProtocolError) : request = some cause := by
  unfold cause? at h
  split at h
  · rcases hcause with rfl | rfl <;> cases h
  · split at h
    · rcases hcause with rfl | rfl <;> cases h
    · split at h
      · rcases hcause with rfl | rfl <;> cases h
      · exact h

theorem turn_served {arrivals : Arrivals} (h : b.turn arrivals = (c, some cause))
    (hcause : cause = .jtagDisconnected ∨ cause = .jtagProtocolError) :
    c.served? .jtag = none := by
  cases hfirst : (b.midway arrivals).1.cause? arrivals.stop (b.midway arrivals).2 with
  | none =>
    rw [turn_of_none hfirst] at h
    cases h
  | some first =>
    rw [turn_of_cause hfirst, Prod.mk.injEq, Option.some.injEq] at h
    obtain ⟨rfl, rfl⟩ := h
    have hrequest : (b.midway arrivals).2 = some first := request_of_cause hfirst hcause
    have hserved : (b.midway arrivals).1.served? .jtag = none := by
      apply midway_served_of_request
      rw [hrequest]
      exact Option.some_ne_none first
    exact hserved

/-! ### Runs and histories -/

/-- What iterations keep still holds before the last one. -/
theorem runFrom_keeps {P : Bench M → Prop} (hturn : ∀ b arrivals, P b → P (b.turn arrivals).1)
    (hb : P b) (hrun : runFrom schedule n b fuel = some (c, cause, last)) :
    ∃ e, P e ∧ e.turn (schedule last) = (c, some cause) := by
  induction fuel generalizing n b with
  | zero => cases hrun
  | succ fuel ih =>
    unfold runFrom at hrun
    split at hrun
    · rename_i heq
      simp only [Option.some.injEq, Prod.mk.injEq] at hrun
      obtain ⟨rfl, rfl, rfl⟩ := hrun
      exact ⟨b, hb, heq⟩
    · rename_i heq
      have hnext := hturn b (schedule n) hb
      rw [heq] at hnext
      exact ih hnext hrun

theorem run_eq_shutdown {next : Nat} {report : Report}
    (hrun : run schedule n b fuel = some (report, d, next)) :
    ∃ e last, runFrom schedule n b fuel = some (e, report.cause, last) ∧ d = e.shutdown := by
  rw [run, Option.map_eq_some_iff] at hrun
  obtain ⟨⟨e, cause, last⟩, hfrom, heq⟩ := hrun
  simp only [conclude, Prod.mk.injEq] at heq
  obtain ⟨rfl, rfl, -⟩ := heq
  exact ⟨e, last, hfrom, rfl⟩

theorem runFrom_down (hrun : runFrom schedule n b fuel = some (c, cause, last)) :
    c.down = b.down := by
  obtain ⟨e, he, hturn⟩ := runFrom_keeps (P := fun e => e.down = b.down)
    (fun e arrivals he => (turn_down e arrivals).trans he) rfl hrun
  have hlast := turn_down e (schedule last)
  rw [hturn] at hlast
  exact hlast.trans he

theorem turn_keeps_recorder {r : Option Wave.Recorder} (hr : r.any (·.isOpen) = false)
    (e : Bench M) (arrivals : Arrivals) (he : e.recorder = r) :
    (e.turn arrivals).1.recorder = r := by
  have hclosed : e.recording = false := by rwa [recording, he]
  rw [turn_recorder_of_closed hclosed, he]

/-- The benches of a run leave a recording that has ended as it is. -/
theorem Reaches.recorder (h : Reaches schedule b n c) (hclosed : b.recording = false) :
    c.recorder = b.recorder := by
  induction h with
  | start => rfl
  | @turn n c d _ hturn ih =>
    have hnext := turn_keeps_recorder hclosed c (schedule n) ih
    rw [hturn] at hnext
    exact hnext

theorem runFrom_recorder (hclosed : b.recording = false)
    (hrun : runFrom schedule n b fuel = some (c, cause, last)) : c.recorder = b.recorder := by
  obtain ⟨e, he, hturn⟩ := runFrom_keeps (P := fun e => e.recorder = b.recorder)
    (turn_keeps_recorder hclosed) rfl hrun
  have hlast := turn_keeps_recorder hclosed e (schedule last) he
  rw [hturn] at hlast
  exact hlast

theorem runFrom_recording (h : b.down = true → b.recording = false)
    (hrun : runFrom schedule n b fuel = some (c, cause, last)) (hc : c.down = true) :
    c.recording = false := by
  rw [runFrom_down hrun] at hc
  have hclosed := h hc
  rw [recording, runFrom_recorder hclosed hrun]
  exact hclosed

theorem runFrom_served (hrun : runFrom schedule n b fuel = some (c, cause, last))
    (hcause : cause = .jtagDisconnected ∨ cause = .jtagProtocolError) :
    c.served? .jtag = none := by
  obtain ⟨e, -, hturn⟩ := runFrom_keeps (P := fun _ => True) (fun _ _ h => h) trivial hrun
  exact turn_served hturn hcause

namespace Past

/-- A bench is down once it has been run or shut down. -/
theorem down (h : Past b k c) (hb : b.down = false) : c.down = decide (0 < k) := by
  induction h with
  | start => simpa using hb
  | @clients k c _ actions ih =>
    obtain ⟨_, _, _, hact, -⟩ := actAll_eq c actions
    rw [hact]
    exact ih
  | @shutdown k c _ _ => simpa using down_shutdown c
  | run _ hrun _ =>
    obtain ⟨e, last, -, rfl⟩ := run_eq_shutdown hrun
    simpa using down_shutdown e

/-- What a bench has recorded stays as it is once the recording has ended. -/
theorem recorder (h : Past b k c) (hclosed : b.recording = false) : c.recorder = b.recorder := by
  induction h with
  | start => rfl
  | @clients k c _ actions ih =>
    obtain ⟨_, _, _, hact, -⟩ := actAll_eq c actions
    rw [hact]
    exact ih
  | @shutdown k c _ ih =>
    have hc : c.recording = false := by rwa [recording, ih]
    rw [recorder_shutdown hc, ih]
  | @run _ _ _ _ c _ _ _ _ hrun ih =>
    obtain ⟨e, last, hfrom, rfl⟩ := run_eq_shutdown hrun
    have hc : c.recording = false := by rwa [recording, ih]
    have he : e.recorder = b.recorder := (runFrom_recorder hc hfrom).trans ih
    have hopen : e.recording = false := by rwa [recording, he]
    rw [recorder_shutdown hopen, he]

/-- A bench that is down records nothing. -/
theorem closed (h : Past b k c) (hb : b.down = false) (hc : c.down = true) :
    c.recording = false := by
  induction h with
  | start =>
    rw [hb] at hc
    cases hc
  | @clients k c _ actions ih =>
    obtain ⟨_, _, _, hact, -⟩ := actAll_eq c actions
    rw [hact] at hc ⊢
    exact ih hc
  | shutdown _ ih => exact recording_shutdown ih
  | run _ hrun ih =>
    obtain ⟨e, last, hfrom, rfl⟩ := run_eq_shutdown hrun
    exact recording_shutdown (runFrom_recording ih hfrom)

end Past

/-- A run always leaves the recording closed, and nothing is recorded after that.  The first call
that shuts a bench down lets go of every client, and so does a session that ends with its run, but
whoever else is attached at the end of a later run stays attached. -/
theorem run_closes_once (hstart : start around config allocation f = .ok b) :
    (∀ k c, Past b k c → ∀ schedule n fuel report d next,
      run schedule n c fuel = some (report, d, next) →
        d.recording = false ∧
        ((report.cause = .jtagDisconnected ∨ report.cause = .jtagProtocolError) →
          d.served? .jtag = none) ∧
        ∃ e last, runFrom schedule n c fuel = some (e, report.cause, last) ∧
          ∀ transport, d.served? transport = if k = 0 then none else e.served? transport) ∧
    ∀ k c, Past b k c → c.recording = false → ∀ j d, Past c j d → ∀ schedule n e,
      Reaches schedule d n e → e.recorder = c.recorder := by
  have hdown : b.down = false := by
    obtain ⟨_, _, _, _, -, -, -, -, rfl⟩ := eq_of_start hstart
    rfl
  constructor
  · intro k c hpast schedule n fuel report d next hrun
    obtain ⟨e, last, hfrom, rfl⟩ := run_eq_shutdown hrun
    have hended : e.down = decide (0 < k) := (runFrom_down hfrom).trans (hpast.down hdown)
    refine ⟨recording_shutdown (runFrom_recording (hpast.closed hdown) hfrom), ?_, e, last, hfrom, ?_⟩
    · intro hcause
      cases hk : e.down with
      | true =>
        rw [shutdown_of_down hk]
        exact runFrom_served hfrom hcause
      | false => exact served_shutdown hk .jtag
    · intro transport
      split
      · rename_i hk
        subst hk
        exact served_shutdown (by simpa using hended) transport
      · rename_i hk
        -- A bench that is down already is left as it is by the end of its run.
        have hlater : e.down = true := by simpa [Nat.pos_of_ne_zero hk] using hended
        rw [shutdown_of_down hlater]
  · intro k c _ hclosed j d hlater schedule n e hreaches
    have hd : d.recorder = c.recorder := hlater.recorder hclosed
    have hopen : d.recording = false := by rwa [recording, hd]
    rw [hreaches.recorder hopen, hd]

/-- A recording, a debug server, no reset and a limit of 25 with a time step of 10. -/
def openedTwice : Config :=
  { recorded with
    reset := ⟨0, true⟩
    jtag := { Config.standard.jtag with enabled := true } }

/-- A client connects to the debug server before iteration 4. -/
def lateClient : Schedule := fun n =>
  if n = 4 then ⟨[(.jtag, .connect 1)], false⟩ else ⟨[], false⟩

/-- The first run ends with nobody attached.  The client that connects in the second one is still
served after it. -/
theorem run_closes_once_lateClient :
    ∃ b c d first second, start ⟨fun _ _ => true, true, true⟩ openedTwice .standard
        (Fixture.standard .standard) = .ok b ∧
      run quiet 0 b 9 = some (first, c, 4) ∧ run lateClient 4 c 9 = some (second, d, 5) ∧
      c.recording = false ∧ (∀ transport, c.served? transport = none) ∧
      d.recording = false ∧ d.recorder = c.recorder ∧ d.served? .jtag = some (.fresh 1) := by
  have hruns : ((start ⟨fun _ _ => true, true, true⟩ openedTwice .standard
      (Fixture.standard Model.EchoSoc.standard)).toOption.bind fun b =>
        (run quiet 0 b 9).bind fun r => (run lateClient 4 r.2.1 9).map fun s =>
          (r.2.2, s.2.2, s.2.1.served? .jtag)) = some (4, 5, some (.fresh 1)) := by
    decide +kernel
  obtain ⟨b, hb, hruns⟩ := Option.bind_eq_some_iff.mp hruns
  obtain ⟨⟨first, c, _⟩, hfirst, hruns⟩ := Option.bind_eq_some_iff.mp hruns
  obtain ⟨⟨second, d, _⟩, hsecond, heq⟩ := Option.map_eq_some_iff.mp hruns
  simp only [Prod.mk.injEq] at heq
  obtain ⟨rfl, rfl, hserved⟩ := heq
  have hstart := eq_ok_of_toOption hb
  have hpast : Past b 1 c := .run .start hfirst
  obtain ⟨hruns, hkeeps⟩ := run_closes_once hstart
  obtain ⟨hclosed, -, _, _, -, hnone⟩ := hruns 0 b .start _ _ _ _ _ _ hfirst
  obtain ⟨hclosed', -⟩ := hruns 1 c hpast _ _ _ _ _ _ hsecond
  have hrecorder : d.recorder = c.recorder :=
    hkeeps 1 c hpast hclosed 1 d (.run .start hsecond) quiet 0 d .start
  exact ⟨b, c, d, first, second, hstart, hfirst, hsecond, hclosed, hnone, hclosed', hrecorder, hserved⟩

end Bench

end PinBench
