import PinBench.Model.WireTable
import PinBench.Proofs.Bench.Closing
import PinBench.Proofs.Bench.Observers
import PinBench.Proofs.Telemetry.Publishing

/-! The relay's part in a run.  In each iteration observers act on its server, it is handed the byte
that the serial link has received in this very iteration, if there is one, and it ticks
(`course_relay`).  So the law of its uses applies to whole runs, and the bytes that it publishes are
those of the report, each with the time of the iteration that received it (`outputs_mirrored`). -/

namespace PinBench

open Telemetry

namespace Telemetry.Relay

variable {M : Type} [HardwareModel M]

theorem run_append {E : Type} [Endpoint E] (m : Relay E) (uses more : List (Use E M)) :
    m.run (uses ++ more) = (m.run uses).run more := List.foldl_append

theorem run_outside (m : Relay Server) (actions : List Net.ClientAction) :
    m.run (actions.map fun action => (.outside (·.meet (.client action)) : Use Server M)) =
      m.meetAll actions := by
  induction actions generalizing m with
  | nil => rfl
  | cons action actions ih => exact ih _

/-- A tick with the byte that is handed on right before it, if there is one. -/
theorem run_handed (m : Relay Server) (byte? : Option UInt8) (now : Time) (f : Fixture M) :
    m.run (byte?.toList.map (.stream now) ++ [.tick now f]) =
      ((byte?.elim m (m.pushByte now)).tick now f).1 := by
  cases byte? <;>
    simp only [Option.toList_none, Option.toList_some, List.map_nil, List.map_cons, List.nil_append,
      List.cons_append, run, List.foldl_nil, List.foldl_cons, meet, Option.elim]

end Telemetry.Relay

namespace Bench

variable {M : Type} [HardwareModel M] {around : Surroundings} {config : Config}
  {allocation : Gpio.Allocation} {f : Fixture M} {b c d : Bench M} {schedule : Schedule} {n : Nat}

/-! ### The uses of the relay -/

/-- The byte that the serial link has just received in iteration `n`, if there is one. -/
def heardAt (schedule : Schedule) (b : Bench M) (n : Nat) : Option UInt8 :=
  ((course schedule b n).beforeRelay (schedule n)).serial.bind (·.lastReceived)

/-- What iteration `n` does to the relay. -/
def usesAt (schedule : Schedule) (b : Bench M) (n : Nat) : List (Use Server M) :=
  (observerActions (schedule n).actions).map (fun action => .outside (·.meet (.client action))) ++
    ((heardAt schedule b n).toList.map (.stream (course schedule b n).time.now) ++
      [.tick (course schedule b n).time.now
        ((course schedule b n).beforeRelay (schedule n)).fixture])

/-- What the iterations before number `n` do to the relay. -/
def usesBefore (schedule : Schedule) (b : Bench M) (n : Nat) : List (Use Server M) :=
  (List.range n).flatMap (usesAt schedule b)

theorem usesBefore_succ (schedule : Schedule) (b : Bench M) (n : Nat) :
    usesBefore schedule b (n + 1) = usesBefore schedule b n ++ usesAt schedule b n := by
  simp only [usesBefore, List.range_succ, List.flatMap_append, List.flatMap_cons,
    List.flatMap_nil, List.append_nil]

omit [HardwareModel M] in
theorem tickingRelay?_eq (b : Bench M) :
    b.tickingRelay? = b.relay.map fun m =>
      (b.serial.bind (·.lastReceived)).elim m (m.pushByte b.time.now) := by
  rw [tickingRelay?]
  cases b.serial.bind (·.lastReceived) <;> rfl

theorem middle_relay (schedule : Schedule) (b : Bench M) (n : Nat) :
    (middle schedule b n).1.relay =
      (course schedule b n).relay.map (·.run (usesAt schedule b n)) := by
  rw [middle, midway_relay, tickingRelay?_eq, beforeRelay_relay, usesAt, ← heardAt,
    beforeRelay_time]
  cases (course schedule b n).relay with
  | none => simp only [Option.map_none]
  | some m =>
    simp only [Option.map_some]
    rw [Relay.run_append, Relay.run_outside, Relay.run_handed]

theorem course_relay (schedule : Schedule) (b : Bench M) (n : Nat) :
    (course schedule b n).relay = b.relay.map (·.run (usesBefore schedule b n)) := by
  induction n with
  | zero => simp [course, usesBefore, Relay.run]
  | succ n ih =>
    rw [course_relay_succ, middle_relay, ih, Option.map_map, usesBefore_succ]
    congr 1
    funext m
    exact (Relay.run_append m _ _).symm

/-! ### The bytes of the serial link -/

/-- The bytes that the record of the serial link gains in iteration `n`. -/
def decoded (schedule : Schedule) (b : Bench M) (n : Nat) : List UInt8 :=
  (middle schedule b n).1.received.toList.drop (course schedule b n).received.size

/-- A tick of the serial link records the byte that it has just received. -/
theorem tickSerial_received (b : Bench M) :
    b.tickSerial.received.toList =
      b.received.toList ++ (b.tickSerial.serial.bind (·.lastReceived)).toList := by
  cases hserial : b.serial with
  | none => simp [tickSerial, received, hserial]
  | some link =>
    rw [tickSerial_eq hserial]
    simp only [received, hserial, Option.map_some, Option.getD_some, Option.bind_some,
      Serial.Link.tick, Serial.Link.ticked]
    split
    · rename_i byte hbyte
      rw [hbyte, Array.toList_push]
      rfl
    · rename_i hnone
      rw [hnone]
      exact (List.append_nil _).symm

theorem settled_serial (b : Bench M) (arrivals : Arrivals) :
    (b.settled arrivals).serial = b.serial := by
  obtain ⟨_, _, _, _, _, _, hsettled⟩ := settled_eq b arrivals
  rw [hsettled]

theorem beforeRelay_serial (b : Bench M) (arrivals : Arrivals) :
    (b.beforeRelay arrivals).serial = (b.settled arrivals).tickSerial.serial := by
  obtain ⟨_, _, hprobe, -⟩ := tickProbe_eq (b.settled arrivals).tickSerial
  rw [beforeRelay, hprobe]

theorem midway_serial (b : Bench M) (arrivals : Arrivals) :
    (b.midway arrivals).1.serial = (b.settled arrivals).tickSerial.serial := by
  obtain ⟨_, _, _, _, hexchange, -⟩ := exchange_eq (b.settled arrivals)
  show (b.settled arrivals).exchange.1.serial = _
  rw [hexchange]

theorem middle_received (schedule : Schedule) (b : Bench M) (n : Nat) :
    (middle schedule b n).1.received.toList =
      (course schedule b n).received.toList ++ (heardAt schedule b n).toList := by
  have hreceived : ((course schedule b n).settled (schedule n)).received =
      (course schedule b n).received := by
    rw [received, settled_serial, received]
  rw [heardAt, beforeRelay_serial, ← hreceived, ← tickSerial_received, middle, received,
    midway_serial, received]

/-- The relay is handed each byte in the iteration in which it is received, and never again. -/
theorem heardAt_eq_decoded (schedule : Schedule) (b : Bench M) (n : Nat) :
    (heardAt schedule b n).toList = decoded schedule b n := by
  rw [decoded, middle_received]
  exact (List.drop_left' rfl).symm

theorem course_received_succ (schedule : Schedule) (b : Bench M) (n : Nat) :
    (course schedule b (n + 1)).received = (middle schedule b n).1.received := by
  obtain ⟨_, _, hadvance, -⟩ := advance_eq (middle schedule b n).1
  show (middle schedule b n).1.advance.received = _
  rw [hadvance, received, received]

theorem course_received (hnone : b.received = #[]) (schedule : Schedule) (n : Nat) :
    (course schedule b n).received.toList = (List.range n).flatMap (decoded schedule b) := by
  induction n with
  | zero => simp [course, hnone]
  | succ n ih =>
    rw [course_received_succ, middle_received, ih, heardAt_eq_decoded, List.range_succ,
      List.flatMap_append, List.flatMap_singleton]

/-! ### Whole runs -/

theorem usesAt_streamed (schedule : Schedule) (b : Bench M) (n : Nat) :
    (usesAt schedule b n).filterMap Use.streamed? =
      (decoded schedule b n).map (byteChange (course schedule b n).time.now) := by
  have houtside (actions : List Net.ClientAction) :
      (actions.map fun action => (.outside (·.meet (.client action)) : Use Server M)).filterMap
        Use.streamed? = [] := by
    rw [List.filterMap_map, List.filterMap_eq_nil_iff]
    exact fun _ _ => rfl
  rw [usesAt, List.filterMap_append, List.filterMap_append, houtside, List.nil_append,
    ← heardAt_eq_decoded]
  cases heardAt schedule b n <;> rfl

theorem usesBefore_streamed (schedule : Schedule) (b : Bench M) (n : Nat) :
    (usesBefore schedule b n).filterMap Use.streamed? = (List.range n).flatMap fun k =>
      (decoded schedule b k).map (byteChange (course schedule b k).time.now) := by
  rw [usesBefore, List.filterMap_flatMap]
  simp only [usesAt_streamed]

theorem course_down (schedule : Schedule) (b : Bench M) (n : Nat) :
    (course schedule b n).down = b.down := by
  induction n with
  | zero => rfl
  | succ n ih =>
    obtain ⟨_, _, hadvance, -⟩ := advance_eq (middle schedule b n).1
    have hsucc : course schedule b (n + 1) = _ := hadvance
    rw [hsucc]
    exact (midway_down _ _).trans ih

theorem start_received (h : start around config allocation f = .ok b) : b.received = #[] := by
  obtain ⟨_, _, _, _, hserial, -, -, -, rfl⟩ := eq_of_start h
  rw [received, startSerial_eq hserial]
  split <;> rfl

omit [HardwareModel M] in
theorem shutdown_relay (h : b.down = false) :
    b.shutdown.relay = b.relay.map Relay.shutdown := by
  simp only [shutdown, h, Bool.false_eq_true, if_false]

theorem run_streams (hstart : start around config allocation f = .ok b)
    (henabled : config.telemetry.enabled = true) {fuel last : Nat} {report : Report}
    (hrun : run schedule 0 b fuel = some (report, d, last + 1)) :
    ∃ (e : Server) (range : Gpio.InputRange) (interval : Time),
      let m := Relay.start e range interval
      let uses := usesBefore schedule b (last + 1)
      b.relay = some m ∧ d.relay = some (m.run uses).shutdown ∧
        (m.pushes uses).filter (·.channel = streamName) = ((List.range (last + 1)).flatMap fun k =>
          (decoded schedule b k).map (byteChange (config.instant k))) ∧
        report.received.toList = (List.range (last + 1)).flatMap (decoded schedule b) := by
  have hconfig := start_config hstart
  have htime := start_time hstart
  obtain ⟨_, _, _, _, -, -, hrelay, -, hb⟩ := eq_of_start hstart
  rw [startRelay_eq hrelay, if_pos henabled] at hb
  obtain ⟨n, -, hn, -, -, hconclude⟩ := run_eq_some_iff.mp hrun
  obtain rfl : last = n := by omega
  rw [conclude, Prod.mk.injEq] at hconclude
  obtain ⟨hreport, rfl⟩ := hconclude
  have hsome : b.relay = some (.start (.listen around.reachable)
      ((allocation.range? .telemetry).getD ⟨.telemetry, 0, 0⟩)
      config.telemetry.pollInterval.toNat) := by
    rw [hb]
  have hup : (ended schedule b last).down = false := by
    show (middle schedule b last).1.down = false
    rw [middle, midway_down, course_down, hb]
  -- The relay has ticked in the last iteration too before the run ends.
  have hrelays : (ended schedule b last).relay = (course schedule b (last + 1)).relay :=
    (course_relay_succ schedule b last).symm
  refine ⟨_, _, _, hsome, ?_, ?_, ?_⟩
  · rw [shutdown_relay hup, hrelays, course_relay, hsome, Option.map_some, Option.map_some]
  · rw [Relay.stream_run, usesBefore_streamed]
    simp only [course_time htime, hconfig]
  · rw [hreport, ← course_received (start_received hstart), course_received_succ]
    rfl

/-- The changes that a relay pushes mirror the words that it reads and the bytes that it is handed,
whatever happens to it.  In a run they are handed to it in the iterations in which the serial link
receives them, so the values on the stream are the bytes of the report in their order. -/
theorem outputs_mirrored :
    (∀ (E M : Type) [Endpoint E] [HardwareModel M] (e : E) (range : Gpio.InputRange)
      (interval : Time) (uses : List (Use E M)), (Relay.start e range interval).Mirrors uses) ∧
    ∀ (M : Type) [HardwareModel M] (around : Surroundings) (config : Config)
      (allocation : Gpio.Allocation) (f : Fixture M) (schedule : Schedule) (b d : Bench M)
      (fuel last : Nat) (report : Report), start around config allocation f = .ok b →
      config.telemetry.enabled = true →
      run schedule 0 b fuel = some (report, d, last + 1) →
      ∃ (e : Server) (range : Gpio.InputRange) (interval : Time),
        let m := Relay.start e range interval
        let uses := usesBefore schedule b (last + 1)
        let streamed := (m.pushes uses).filter (·.channel = streamName)
        b.relay = some m ∧ d.relay = some (m.run uses).shutdown ∧
          (streamed = (List.range (last + 1)).flatMap fun k =>
            (decoded schedule b k).map (byteChange (config.instant k))) ∧
          report.received.toList = (List.range (last + 1)).flatMap (decoded schedule b) ∧
          streamed.map (·.value) = report.received.toList.map (·.toUInt64) := by
  constructor
  · intro E M _ _ e range interval uses
    exact Relay.mirrors_run e range interval uses
  · intro M _ around config allocation f schedule b d fuel last report hstart henabled hrun
    obtain ⟨e, range, interval, hrelay, hended, hstreamed, hreceived⟩ :=
      run_streams hstart henabled hrun
    refine ⟨e, range, interval, hrelay, hended, hstreamed, hreceived, ?_⟩
    rw [hstreamed, hreceived, List.map_flatMap, List.map_flatMap]
    simp only [List.map_map]
    rfl

/-- A model whose serial line follows reset and whose first LED follows the clock. -/
def shorted : Model.WireTable :=
  { Model.WireTable.plain [.input "clk" 1, .input "rst" 1, .input "i_uart_rx" 1,
      .output "o_uart_tx" 1, .input "i_sw" 32, .output "o_led" 16] with
    wires := [(1, 3), (0, 5)]
    finishAt := some 12 }

/-- Telemetry, and one time step for each bit of a serial frame. -/
def overheard : Config :=
  { Config.standard with
    clock := ⟨1, true⟩
    reset := ⟨1, true⟩
    uart := ⟨1000000000, []⟩
    telemetry := { Config.standard.telemetry with enabled := true } }

/-- The line falls with reset and stays low, which makes a byte of zeros. -/
theorem outputs_mirrored_shorted :
    ∃ f b report d, Fixture.bind shorted .standard = .ok f ∧
      start ⟨fun _ _ => true, true, true⟩ overheard .standard f = .ok b ∧
      overheard.telemetry.enabled = true ∧ run quiet 0 b 20 = some (report, d, 11 + 1) ∧
      report.received.toList = [0] ∧
      ∃ m, b.relay = some m ∧ d.relay = some (m.run (usesBefore quiet b 12)).shutdown ∧
        m.Mirrors (usesBefore quiet b 12) ∧
        ((m.pushes (usesBefore quiet b 12)).filter (·.channel = streamName)).map (·.value) =
          [0] := by
  have hdone : (Fixture.bind shorted .standard).toOption.bind (fun f =>
      (start ⟨fun _ _ => true, true, true⟩ overheard .standard f).toOption.bind fun b =>
        (run quiet 0 b 20).map fun r => (r.1.received.toList, r.2.2)) = some ([0], 11 + 1) := by
    decide +kernel
  obtain ⟨f, hf, hdone⟩ := Option.bind_eq_some_iff.mp hdone
  obtain ⟨b, hb, hmap⟩ := Option.bind_eq_some_iff.mp hdone
  obtain ⟨⟨report, d, next⟩, hrun, heq⟩ := Option.map_eq_some_iff.mp hmap
  rw [Prod.mk.injEq] at heq
  obtain ⟨hreceived, rfl⟩ := heq
  have hstart := eq_ok_of_toOption hb
  obtain ⟨e, range, interval, hrelay, hended, -, -, hvalues⟩ :=
    outputs_mirrored.2 _ _ _ _ _ quiet b d 20 11 report hstart rfl hrun
  rw [hreceived] at hvalues
  exact ⟨f, b, report, d, eq_ok_of_toOption hf, hstart, rfl, hrun, hreceived, _, hrelay, hended,
    outputs_mirrored.1 _ _ e range interval _, hvalues⟩

end Bench

end PinBench
