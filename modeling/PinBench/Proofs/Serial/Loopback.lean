import Mathlib.Data.List.Chain
import PinBench.Proofs.Serial.Hearing

/-! A transmitter whose line leads straight to a receiver of the same rate.  Bytes may be queued at
any point of a run, and both ends tick together at times of their own.

* `InStep` is what one tick keeps: both ends rest, or both are in the same frame, since the same
  time.
* `received_eq_sent` says that every tick receives exactly the byte that it has sent. -/

namespace PinBench.Serial

/-- What happens to a transmitter and a receiver on one line. -/
inductive LoopbackEvent where
  | enqueue (bytes : List UInt8)
  | tick (now : Nat)
  deriving DecidableEq, Repr

/-- The times of the ticks in a run. -/
def tickTimes (events : List LoopbackEvent) : List Nat :=
  events.filterMap fun
    | .enqueue _ => none
    | .tick now => some now

/-- What one tick came to at both ends. -/
structure Exchange where
  sent : Option UInt8
  received : Option UInt8
  deriving DecidableEq, Repr

/-- A transmitter whose line leads to a receiver. -/
structure Loopback where
  transmitter : Transmitter
  receiver : Receiver
  deriving DecidableEq, Repr

namespace Loopback

/-- Both ends before the first tick. -/
def start (baudRate : UInt32) : Loopback := ⟨.idle baudRate, .idle baudRate⟩

def enqueue (l : Loopback) (bytes : List UInt8) : Loopback :=
  { l with transmitter := l.transmitter.enqueue bytes }

/-- Both ends tick: the receiver sees the level that the transmitter drives. -/
def tick (l : Loopback) (now : Nat) : Loopback × Exchange :=
  let (transmitter, sent) := l.transmitter.tick now
  let (receiver, received) := l.receiver.tick now transmitter.level
  (⟨transmitter, receiver⟩, ⟨sent, received⟩)

/-- What each tick of a run came to. -/
def exchanges (l : Loopback) : List LoopbackEvent → List Exchange
  | [] => []
  | .enqueue bytes :: events => (l.enqueue bytes).exchanges events
  | .tick now :: events => (l.tick now).2 :: (l.tick now).1.exchanges events

variable {l : Loopback} {period last now : Nat}

/-- Both ends have bits of the same length. -/
structure Matched (l : Loopback) (period : Nat) : Prop where
  transmitter : l.transmitter.bitPeriod = period
  receiver : l.receiver.bitPeriod = period

theorem Matched.tick (h : l.Matched period) (now : Nat) : (l.tick now).1.Matched period :=
  ⟨(Transmitter.tick_bitPeriod _ _).trans h.transmitter,
    (Receiver.tick_bitPeriod _ _ _).trans h.receiver⟩

/-- After a tick at time `last` both ends rest on a high line, or both are in the same frame, which
started on the same tick. -/
inductive InStep (l : Loopback) (last : Nat) : Prop where
  | quiet (transmitter : l.transmitter.Resting) (receiver : l.receiver.phase = .idle)
      (previous : l.receiver.previous = some true)
  | frame (edge : Nat) (byte : UInt8) (transmitter : l.transmitter.Sending edge byte last)
      (receiver : l.receiver.Hearing edge byte last)
      (previous : l.receiver.previous = some l.transmitter.level)

theorem InStep.enqueue (h : l.InStep last) (bytes : List UInt8) :
    (l.enqueue bytes).InStep last := by
  cases h with
  | quiet ht hr hprev => exact .quiet (ht.enqueue bytes) hr hprev
  | frame edge byte ht hr hprev => exact .frame edge byte (ht.enqueue bytes) hr hprev

/-- Both ends look for work on one tick: the receiver finds the start edge of the frame that the
transmitter starts, and no other. -/
theorem inStep_begin {t : Transmitter} {r : Receiver} (ht : t.Resting) (hr : r.phase = .idle)
    (hprev : r.previous = some true) (hpt : 2 ≤ t.bitPeriod) (hpr : 2 ≤ r.bitPeriod) (now : Nat) :
    InStep ⟨t.begin now, { r.begin now (t.begin now).level with
      previous := some (t.begin now).level }⟩ now := by
  rcases ht.begin_cases (by omega) now with ⟨byte, rest, -, hsending, -⟩ | ⟨hresting, -⟩
  · have hlow : (t.begin now).level = false := by
      rw [hsending.level, Nat.sub_self, Nat.zero_div]
      rfl
    rw [hlow]
    refine .frame now byte hsending ?_ (by simp [hlow])
    exact (Receiver.hearing_begin hr hprev hpr byte now).keep
  · rw [hresting.level, Receiver.begin_of_high]
    exact .quiet hresting hr rfl

/-- One tick: nothing but the end of a frame yields a byte, and then both ends yield the same. -/
theorem InStep.tick (h : l.InStep last) (hm : l.Matched period) (hp : 2 ≤ period)
    (hle : last ≤ now) (hgap : now ≤ last + (period - period / 2)) :
    (l.tick now).1.InStep now ∧ (l.tick now).2.received = (l.tick now).2.sent := by
  have hpt := hm.transmitter
  have hpr := hm.receiver
  cases h with
  | quiet ht hr hprev =>
    simp only [Loopback.tick, ht.tick, Receiver.tick_idle hr]
    exact ⟨inStep_begin ht hr hprev (by omega) (by omega) now, trivial⟩
  | frame edge byte ht hr hprev =>
    have hbegun := ht.begun
    by_cases hdone : edge + frameBits * period ≤ now
    · -- The frame ends at both ends, and the next one may start on this very tick.
      have hgapt : now ≤ last + l.transmitter.bitPeriod := by omega
      have hgapr : now ≤ last + l.receiver.bitPeriod := by omega
      have hdonet : edge + frameBits * l.transmitter.bitPeriod ≤ now := by rw [hpt]; exact hdone
      have hdoner : edge + frameBits * l.receiver.bitPeriod ≤ now := by rw [hpr]; exact hdone
      obtain ⟨hhigh, hresting⟩ := ht.resting_last hgapt hdonet
      rw [hhigh] at hprev
      simp only [Loopback.tick, ht.tick_last hgapt hdonet, hr.tick_last hgapr hdoner]
      exact ⟨inStep_begin (r := { l.receiver with phase := .idle }) hresting rfl hprev
        (by simp only; omega) (by simp only; omega) now, trivial⟩
    · have hun : now - edge < frameBits * period := by omega
      obtain ⟨hsending, hsent, -, hperiod⟩ :=
        ht.tick hle (by omega) (by rw [hpt]; exact hun)
      -- The line shows the byte as it is now, and no two ticks are more than half a bit apart.
      have hline : (l.transmitter.tick now).1.level =
          slotLevel byte ((now - edge) / l.receiver.bitPeriod) := by
        rw [hsending.level, hperiod, hpt, hpr]
      obtain ⟨hhearing, hreceived⟩ :=
        hr.tick hle (by rw [hpr]; exact hun) (by omega) (by omega) hline
      simp only [Loopback.tick, hsent, hreceived]
      exact ⟨.frame edge byte hsending hhearing (Receiver.tick_previous _ _ _), trivial⟩

/-- Before the first tick the receiver has not seen its line, and the transmitter has not yet waited
out the idle bit that its first frame is due. -/
structure Fresh (l : Loopback) : Prop where
  transmitter : l.transmitter.Resting
  readyAt : l.transmitter.readyAt = none
  receiver : l.receiver.phase = .idle
  previous : l.receiver.previous = none

theorem Fresh.enqueue (h : l.Fresh) (bytes : List UInt8) : (l.enqueue bytes).Fresh :=
  ⟨h.transmitter.enqueue bytes, h.readyAt, h.receiver, h.previous⟩

theorem Fresh.tick (h : l.Fresh) (hm : l.Matched period) (hp : 0 < period) (now : Nat) :
    (l.tick now).1.InStep now ∧ (l.tick now).2.received = (l.tick now).2.sent := by
  have hpos : 0 < l.transmitter.bitPeriod := by
    rw [hm.transmitter]
    exact hp
  obtain ⟨hresting, -, -⟩ := h.transmitter.begin_first h.readyAt hpos now
  simp only [Loopback.tick, h.transmitter.tick, Receiver.tick_idle h.receiver, hresting.level,
    Receiver.begin_of_high]
  exact ⟨.quiet hresting h.receiver rfl, trivial⟩

theorem fresh_start (baudRate : UInt32) : (start baudRate).Fresh :=
  ⟨Transmitter.resting_idle baudRate, rfl, rfl, rfl⟩

theorem matched_start (baudRate : UInt32) : (start baudRate).Matched (bitPeriod baudRate) :=
  ⟨rfl, rfl⟩

/-! ### Whole runs -/

/-- Ticks follow each other without going back in time and with at most the longer half of a bit
between them. -/
def Steady (period : Nat) (times : List Nat) : Prop :=
  times.IsChain fun a b => a ≤ b ∧ b ≤ a + (period - period / 2)

instance (period : Nat) (times : List Nat) : Decidable (Steady period times) :=
  inferInstanceAs (Decidable (times.IsChain _))

theorem InStep.exchanges (h : l.InStep last) (hm : l.Matched period) (hp : 2 ≤ period)
    (events : List LoopbackEvent) (hsteady : Steady period (last :: tickTimes events)) :
    ∀ e ∈ l.exchanges events, e.received = e.sent := by
  induction events generalizing l last with
  | nil =>
    intro e he
    simp [Loopback.exchanges] at he
  | cons event events ih =>
    cases event with
    | enqueue bytes => exact ih (h.enqueue bytes) ⟨hm.transmitter, hm.receiver⟩ hsteady
    | tick now =>
      obtain ⟨⟨hle, hgap⟩, hrest⟩ := List.isChain_cons_cons.mp hsteady
      obtain ⟨hstep, hsame⟩ := h.tick hm hp hle hgap
      intro e he
      rcases List.mem_cons.mp he with rfl | he
      · exact hsame
      · exact ih hstep (hm.tick now) hrest e he

theorem Fresh.exchanges (h : l.Fresh) (hm : l.Matched period) (hp : 2 ≤ period)
    (events : List LoopbackEvent) (hsteady : Steady period (tickTimes events)) :
    ∀ e ∈ l.exchanges events, e.received = e.sent := by
  induction events generalizing l with
  | nil =>
    intro e he
    simp [Loopback.exchanges] at he
  | cons event events ih =>
    cases event with
    | enqueue bytes => exact ih (h.enqueue bytes) ⟨hm.transmitter, hm.receiver⟩ hsteady
    | tick now =>
      obtain ⟨hstep, hsame⟩ := h.tick hm (by omega) now
      intro e he
      rcases List.mem_cons.mp he with rfl | he
      · exact hsame
      · exact hstep.exchanges (hm.tick now) hp events hsteady e he

/-- Every tick receives exactly the byte whose frame it has ended, so at every moment of a run the
bytes received are the bytes sent, in order. -/
theorem received_eq_sent (baudRate : UInt32) (events : List LoopbackEvent)
    (hp : 2 ≤ bitPeriod baudRate) (hsteady : Steady (bitPeriod baudRate) (tickTimes events)) :
    (∀ e ∈ (start baudRate).exchanges events, e.received = e.sent) ∧
      ∀ n, (((start baudRate).exchanges events).take n).filterMap (·.received) =
        (((start baudRate).exchanges events).take n).filterMap (·.sent) := by
  have hevery := (fresh_start baudRate).exchanges (matched_start baudRate) hp events hsteady
  refine ⟨hevery, fun n => ?_⟩
  exact List.filterMap_congr fun e he => hevery e (List.mem_of_mem_take he)

/-- Two bytes queued at once and a third one later, with ticks a whole and half a bit apart. -/
def threeBytes : List LoopbackEvent :=
  .enqueue [0x41, 0x5A] :: (List.range 32).map (fun i => .tick (3 * i / 2)) ++
    .enqueue [0x00] :: (List.range 50).map fun i => .tick (48 + i)

theorem received_eq_sent_threeBytes :
    (2 ≤ bitPeriod 333333333 ∧ Steady (bitPeriod 333333333) (tickTimes threeBytes)) ∧
      (∀ e ∈ (start 333333333).exchanges threeBytes, e.received = e.sent) ∧
      ((start 333333333).exchanges threeBytes).filterMap (·.sent) = [0x41, 0x5A, 0x00] :=
  have hp : 2 ≤ bitPeriod 333333333 := by decide
  have hsteady : Steady (bitPeriod 333333333) (tickTimes threeBytes) := by decide +kernel
  ⟨⟨hp, hsteady⟩, (received_eq_sent 333333333 threeBytes hp hsteady).1, by decide +kernel⟩

end Loopback

end PinBench.Serial
