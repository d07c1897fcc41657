import PinBench.Proofs.Bench.Inputs
import PinBench.Proofs.Telemetry.Silence

/-! The relay along a run.  Observers act on its server, and in each iteration it is given the byte
that has just been received and ticks.  Nothing else in a bench touches it (`course_relay_succ`). -/

namespace PinBench

open Telemetry

/-- What observers do, among all that clients do. -/
def observerActions (actions : List (Transport × Net.ClientAction)) : List Net.ClientAction :=
  actions.filterMap fun a => if a.1 = .telemetry then some a.2 else none

/-- What observers do before iteration `n`. -/
def observedBefore (schedule : Schedule) (n : Nat) : List Net.ClientAction :=
  (List.range n).flatMap fun k => observerActions (schedule k).actions

theorem observedBefore_succ (schedule : Schedule) (n : Nat) :
    observedBefore schedule (n + 1) =
      observedBefore schedule n ++ observerActions (schedule n).actions := by
  simp only [observedBefore, List.range_succ, List.flatMap_append, List.flatMap_cons,
    List.flatMap_nil, List.append_nil]

namespace Telemetry

/-- Observers act in turn. -/
def Server.meetAll (s : Server) (actions : List Net.ClientAction) : Server :=
  s.run (actions.map .client)

/-- Observers of the relay's server act in turn. -/
def Relay.meetAll (m : Relay Server) (actions : List Net.ClientAction) : Relay Server :=
  { m with endpoint := m.endpoint.meetAll actions }

theorem Server.Tracks.meetAll {earlier : List Net.ClientAction} {s : Server}
    (h : s.Tracks earlier) (actions : List Net.ClientAction) :
    (s.meetAll actions).Tracks (earlier ++ actions) := by
  induction actions generalizing s earlier with
  | nil =>
    rw [List.append_nil]
    exact h
  | cons action actions ih =>
    rw [List.append_cons]
    exact ih (h.client action)

end Telemetry

namespace Bench

variable {M : Type} [HardwareModel M] {b : Bench M} {schedule : Schedule} {n : Nat}

omit [HardwareModel M] in
theorem actAll_observer (b : Bench M) (action : Net.ClientAction) :
    ∃ refused, b.actAll [(.telemetry, action)] =
      { b with relay := b.relay.map (·.meetAll [action]), refused } := by
  simp only [actAll, List.foldl_cons, List.foldl_nil, act]
  cases hrelay : b.relay with
  | none => exact ⟨b.refused ++ [.unreachable], by simp [listener?, hrelay]⟩
  | some m =>
    cases hact : m.endpoint.listener.act action with
    | error e =>
      refine ⟨b.refused ++ [e], ?_⟩
      simp [listener?, hrelay, hact, Except.map, Relay.meetAll, Server.meetAll, Server.run,
        Server.meet, Net.Listener.meet]
    | ok listener =>
      refine ⟨b.refused, ?_⟩
      simp [listener?, hrelay, hact, Except.map, setListener, Relay.meetAll, Server.meetAll,
        Server.run, Server.meet, Net.Listener.meet]

omit [HardwareModel M] in
theorem actAll_debugger (b : Bench M) (action : Net.ClientAction) :
    ∃ refused, b.actAll [(.jtag, action)] = { b with
      probe := b.probe.map fun p =>
        { p with server := { p.server with listener := p.server.listener.meet action } }
      refused } := by
  simp only [actAll, List.foldl_cons, List.foldl_nil, act]
  cases hprobe : b.probe with
  | none => exact ⟨b.refused ++ [.unreachable], by simp [listener?, hprobe]⟩
  | some p =>
    cases hact : p.server.listener.act action with
    | error e =>
      refine ⟨b.refused ++ [e], ?_⟩
      simp [listener?, hprobe, hact, Except.map, Net.Listener.meet]
    | ok listener =>
      refine ⟨b.refused, ?_⟩
      simp [listener?, hprobe, hact, Except.map, setListener, Net.Listener.meet]

omit [HardwareModel M] in
theorem actAll_relay (b : Bench M) (actions : List (Transport × Net.ClientAction)) :
    (b.actAll actions).relay = b.relay.map (·.meetAll (observerActions actions)) := by
  induction actions generalizing b with
  | nil => simp [actAll, observerActions, Relay.meetAll, Server.meetAll, Server.run]
  | cons a actions ih =>
    obtain ⟨transport, action⟩ := a
    rw [actAll_cons, ih]
    cases transport with
    | jtag =>
      obtain ⟨refused, hact⟩ := actAll_debugger b action
      rw [hact]
      rfl
    | telemetry =>
      obtain ⟨refused, hact⟩ := actAll_observer b action
      rw [hact, Option.map_map]
      rfl

theorem beforeRelay_relay (b : Bench M) (arrivals : Arrivals) :
    (b.beforeRelay arrivals).relay =
      b.relay.map (·.meetAll (observerActions arrivals.actions)) := by
  have hsettled : (b.settled arrivals).relay = (b.actAll arrivals.actions).relay := by
    obtain ⟨_, _, hrelease⟩ := releaseReset_eq (b.actAll arrivals.actions)
    rw [settled, settle, hrelease]
  obtain ⟨_, _, hserial, -⟩ := tickSerial_frame (b.settled arrivals)
  obtain ⟨_, _, hprobe, -⟩ := tickProbe_eq (b.settled arrivals).tickSerial
  rw [beforeRelay, hprobe, hserial, hsettled, actAll_relay]

theorem beforeRelay_time (b : Bench M) (arrivals : Arrivals) :
    (b.beforeRelay arrivals).time = b.time := by
  obtain ⟨_, _, _, _, _, _, hsettled⟩ := settled_eq b arrivals
  obtain ⟨_, htime, -⟩ := tickSerial_keeps (b.settled arrivals)
  obtain ⟨_, _, hprobe, -⟩ := tickProbe_eq (b.settled arrivals).tickSerial
  rw [beforeRelay, hprobe]
  show (b.settled arrivals).tickSerial.time = b.time
  rw [htime, hsettled]

/-- The relay ticks once in an iteration, after the serial link and the probe. -/
theorem midway_relay (b : Bench M) (arrivals : Arrivals) :
    (b.midway arrivals).1.relay = (b.beforeRelay arrivals).tickingRelay?.map fun m =>
      (m.tick b.time.now (b.beforeRelay arrivals).fixture).1 := by
  have hmidway : (b.midway arrivals).1.relay = (b.beforeRelay arrivals).tickRelay.relay := rfl
  rw [hmidway, ← beforeRelay_time b arrivals]
  cases hrelay : (b.beforeRelay arrivals).tickingRelay? with
  | none =>
    rw [tickRelay_of_none hrelay]
    rw [tickingRelay?, Option.map_eq_none_iff] at hrelay
    exact hrelay
  | some m =>
    rw [tickRelay_of_some hrelay]
    rfl

theorem advance_relay (b : Bench M) : b.advance.relay = b.relay := by
  obtain ⟨_, _, hadvance, -⟩ := advance_eq b
  rw [hadvance]

theorem course_relay_succ (schedule : Schedule) (b : Bench M) (n : Nat) :
    (course schedule b (n + 1)).relay = (middle schedule b n).1.relay :=
  advance_relay _

end Bench

end PinBench
