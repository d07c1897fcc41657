import PinBench.Proofs.Bench.Mirror
import PinBench.Proofs.Serial.HalfPace

/-! The way back, from the echoing model to the bench.  The model's transmitter ticks at rising
clock edges alone, so at every second tick of the bench's receiver.  What the bench has received is
a prefix of what the model has echoed, and all of it once the model has finished. -/

namespace PinBench

open Model Serial

namespace EchoLoop

variable {p : EchoSetup} {l : EchoLoop} {now : Nat}

theorem exchange_received (l : EchoLoop) (now : Nat) :
    (l.exchange now).link.received.toList =
      l.link.received.toList ++ (l.link.receiver.tick now l.part.uartTx).2.toList :=
  Array.toList_append

/-- Reset has kept the model from receiving and sending anything. -/
structure Held (l : EchoLoop) : Prop where
  rst : l.part.rst = true
  transmitter : l.part.transmitter.Resting
  readyAt : l.part.transmitter.readyAt = none
  pending : l.part.transmitter.pending = []
  accepted : l.part.received = #[]
  receiver : l.link.receiver.phase = .idle
  received : l.link.received = #[]

/-- Before an iteration, after a tick of the link at time `now`: the model is still held in reset,
or its echoes are on their way. -/
inductive Echoing (p : EchoSetup) (l : EchoLoop) (now : Nat) : Prop where
  | held (held : l.Held)
  | running (rst : l.part.rst = false)
      (relaying : Relaying l.part.transmitter l.link.receiver (if l.part.clk then p.timeStep else 0)
        (l.part.cycles * l.part.clockPeriod) now (SerialPart.echoes l.part.received.toList)
        l.link.received.toList)

theorem held_start (p : EchoSetup) : (start p).Held :=
  ⟨rfl, Transmitter.resting_idle _, rfl, rfl, rfl, rfl, rfl⟩

/-- The link's tick after the model has settled out of reset. -/
theorem echoing_exchange (hrst : l.part.rst = false)
    (h : Relaying l.part.transmitter (l.link.receiver.tick now l.part.uartTx).1
      (if l.part.clk then 0 else p.timeStep) (l.part.cycles * l.part.clockPeriod) now
      (SerialPart.echoes l.part.received.toList)
      (l.link.received.toList ++ (l.link.receiver.tick now l.part.uartTx).2.toList)) :
    (l.exchange now).toggle.Echoing p now := by
  refine .running hrst ?_
  have hlag : (if (l.exchange now).toggle.part.clk then p.timeStep else 0) =
      if l.part.clk then 0 else p.timeStep := by
    cases hclk : l.part.clk <;> simp [toggle, exchange, hclk]
  have hreceived : (l.exchange now).toggle.link.received.toList = _ := l.exchange_received now
  rw [hlag, hreceived]
  exact h

/-- The link's tick after a rising clock edge.  What the model has received joins its echoes. -/
theorem echoing_rise (ht : l.Timed p) (hclk : l.part.clk = true)
    (h : ∀ queued,
      Relaying ((l.part.transmitter.enqueue queued).tick
          (l.part.cycles * l.part.clockPeriod + 2 * p.timeStep)).1
        (l.link.receiver.tick now ((l.part.transmitter.enqueue queued).tick
          (l.part.cycles * l.part.clockPeriod + 2 * p.timeStep)).1.level).1 0
        (l.part.cycles * l.part.clockPeriod + 2 * p.timeStep) now
        (SerialPart.echoes l.part.received.toList ++ queued)
        (l.link.received.toList ++ (l.link.receiver.tick now
          ((l.part.transmitter.enqueue queued).tick
            (l.part.cycles * l.part.clockPeriod + 2 * p.timeStep)).1.level).2.toList)) :
    (exchange { l with part := { l.part with rst := false, lastClk := true }.rise } now).toggle.Echoing
      p now := by
  have htime : SerialPart.nextTime { l.part with rst := false, lastClk := true } =
      l.part.cycles * l.part.clockPeriod + 2 * p.timeStep := by
    show (l.part.cycles + 1) * l.part.clockPeriod = _
    rw [Nat.succ_mul, ht.clockPeriod]
  rw [SerialPart.rise_eq, htime]
  refine echoing_exchange rfl ?_
  have hcycles : (l.part.cycles + 1) * l.part.clockPeriod =
      l.part.cycles * l.part.clockPeriod + 2 * p.timeStep := by
    rw [Nat.succ_mul, ht.clockPeriod]
  simp only [hclk, if_true, hcycles, Array.toList_append, SerialPart.echoes, List.filter_append]
  exact h _

/-- An echo that is due on the first rising edge has to wait, so nothing is sent yet. -/
theorem Held.turn (h : l.Held) (ht : l.Timed p) (hrising : l.Rising)
    (hpos : 0 < bitPeriod p.baudRate) (now : Nat) :
    (l.turn now p.releaseTime).toggle.Echoing p now := by
  have hr := h.receiver
  have hreceived := h.received
  have haccepted := h.accepted
  have hlevel : l.part.uartTx = true := by rw [ht.uartTx, h.transmitter.level]
  rw [EchoLoop.turn]
  cases hrst : l.part.rst && decide (now < p.releaseTime) with
  | true =>
    rw [settle_of_reset hrst]
    refine .held ⟨rfl, Transmitter.resting_idle _, rfl, rfl, haccepted, ?_, ?_⟩
    · simp [toggle, exchange, SerialPart.reset, Receiver.tick_idle hr, Receiver.begin_of_high, hr]
    · simp [toggle, exchange, Receiver.tick_idle hr, hreceived]
  | false =>
    cases hclk : l.part.clk with
    | false =>
      rw [settle_of_low hrst hclk]
      refine echoing_exchange rfl ?_
      simp only [hlevel, Receiver.tick_idle hr, Receiver.begin_of_high, haccepted, hreceived]
      exact .quiet h.transmitter hr rfl (by rw [h.pending]; rfl)
    | true =>
      rw [settle_of_high hrst hclk (hrising hclk)]
      refine echoing_rise ht hclk fun queued => ?_
      have hpos' : 0 < (l.part.transmitter.enqueue queued).bitPeriod := by
        show 0 < l.part.transmitter.bitPeriod
        rw [ht.partTransmitter]
        exact hpos
      obtain ⟨hresting, hpending, -⟩ := (h.transmitter.enqueue queued).begin_first h.readyAt hpos'
        (l.part.cycles * l.part.clockPeriod + 2 * p.timeStep)
      rw [(h.transmitter.enqueue queued).tick, hresting.level, Receiver.tick_idle hr,
        Receiver.begin_of_high]
      refine .quiet hresting hr rfl ?_
      rw [hpending]
      simp [haccepted, hreceived, Transmitter.enqueue, h.pending, SerialPart.echoes]

theorem Echoing.turn (h : l.Echoing p now) (ht : l.Timed p) (hrising : l.Rising)
    (hpos : 0 < p.timeStep) (hlong : 6 * p.timeStep ≤ bitPeriod p.baudRate) :
    (l.turn (now + p.timeStep) p.releaseTime).toggle.Echoing p (now + p.timeStep) := by
  cases h with
  | held h => exact h.turn ht hrising (by omega) _
  | running hrst h =>
    have hout : (l.part.rst && decide (now + p.timeStep < p.releaseTime)) = false := by
      rw [hrst, Bool.false_and]
    have hperiod : l.part.transmitter.bitPeriod = l.link.receiver.bitPeriod :=
      ht.partTransmitter.trans ht.linkReceiver.symm
    have hlongR : 6 * p.timeStep ≤ l.link.receiver.bitPeriod := by
      rw [ht.linkReceiver]
      exact hlong
    rw [EchoLoop.turn]
    cases hclk : l.part.clk with
    | false =>
      rw [hclk] at h
      have hnext := h.tick_receiver hperiod hlongR
      rw [← ht.uartTx] at hnext
      rw [settle_of_low hout hclk]
      refine echoing_exchange rfl ?_
      rw [hclk]
      exact hnext
    | true =>
      rw [hclk, if_pos rfl] at h
      have hnext := h.tick_both hpos hperiod hlongR
      rw [settle_of_high hout hclk (hrising hclk)]
      exact echoing_rise ht hclk hnext

theorem echoing_before (p : EchoSetup) (hpos : 0 < p.timeStep)
    (hlong : 6 * p.timeStep ≤ bitPeriod p.baudRate) (n : Nat) :
    (before p (n + 1)).Echoing p (n * p.timeStep) := by
  induction n with
  | zero =>
    obtain ⟨ht, hrising⟩ := timed_before p 0
    exact (held_start p).turn ht hrising (by omega) _
  | succ n ih =>
    obtain ⟨ht, hrising⟩ := timed_before p (n + 1)
    have hnext := ih.turn ht hrising hpos hlong
    rw [← Nat.succ_mul] at hnext
    exact hnext

/-- After every iteration the link has received a prefix of the echoes. -/
theorem after_received_prefix (p : EchoSetup) (hpos : 0 < p.timeStep)
    (hlong : 6 * p.timeStep ≤ bitPeriod p.baudRate) (n : Nat) :
    (after p n).link.received.toList <+: SerialPart.echoes (after p n).part.received.toList := by
  cases echoing_before p hpos hlong n with
  | held h =>
    have hreceived : (after p n).link.received = #[] := h.received
    rw [hreceived]
    exact List.nil_prefix
  | running _ h => exact h.received_prefix

/-- Once the model has finished, the link has received every echo. -/
theorem after_received_eq (p : EchoSetup) (hpos : 0 < p.timeStep)
    (hlong : 6 * p.timeStep ≤ bitPeriod p.baudRate) (n : Nat)
    (hfinished : (after p n).part.finished = true) :
    (after p n).link.received.toList = SerialPart.echoes (after p n).part.received.toList := by
  cases echoing_before p hpos hlong n with
  | held h =>
    have hreceived : (after p n).link.received = #[] := h.received
    have haccepted : (after p n).part.received = #[] := h.accepted
    rw [hreceived, haccepted]
    rfl
  | running _ h =>
    rw [SerialPart.finished, Bool.and_eq_true] at hfinished
    exact (h.received_eq hfinished.2).symm

end EchoLoop

namespace Bench

theorem received_of_serial {M : Type} {b : Bench M} {link : Serial.Link}
    (h : b.serial = some link) : b.received = link.received := by
  rw [received, h]
  rfl

/-- The way back in whole runs.  After every iteration the bytes that the bench has received are a
prefix of the model's echoes, and in a run that ends because the model has finished they are all of
them. -/
theorem received_echoes {config : Config} {b : Bench EchoSoc} (hb : StartsEcho config b)
    (hhigh : config.reset.activeHigh = true)
    (hlong : 6 * config.timeStep ≤ bitPeriod config.uart.baudRate) (schedule : Schedule) :
    (∀ n c, Reaches schedule b n c → n * config.timeStep ≤ Time.latest →
      (c.turn (schedule n)).1.received.toList <+:
        SerialPart.echoes (c.turn (schedule n)).1.fixture.model.received.toList) ∧
    (∀ fuel report d last, run schedule 0 b fuel = some (report, d, last + 1) →
      last * config.timeStep ≤ Time.latest → report.cause = .modelFinished →
      report.received.toList = SerialPart.echoes d.fixture.model.received.toList) := by
  have hpos : 0 < config.timeStep := Nat.lt_of_lt_of_le Nat.zero_lt_one (Nat.le_max_right _ _)
  refine ⟨fun n c hc hn => ?_, fun fuel report d last hrun hlast hcause => ?_⟩
  · obtain ⟨hlink, hmodel, -⟩ := turn_mirrors hb hhigh hc hn
    rw [received_of_serial hlink, hmodel]
    exact EchoLoop.after_received_prefix (.ofConfig config) hpos hlong n
  · obtain ⟨c, hc, hturn, hreport, hfixture⟩ := reaches_of_run hrun
    obtain ⟨hlink, hmodel, hfinished⟩ := turn_mirrors hb hhigh hc hlast
    rw [hreport, received_of_serial hlink, hfixture, hmodel]
    rw [hcause] at hturn
    exact EchoLoop.after_received_eq (.ofConfig config) hpos hlong last (hfinished hturn)

/-- One byte and the end of the session, at six time steps a bit. -/
def oneByte : Config :=
  { Config.standard with
    clock := ⟨1, false⟩
    reset := ⟨2, true⟩
    uart := ⟨166666666, [0x41, endOfTransmission]⟩
    stimulus := ⟨false, 0⟩ }

theorem received_echoes_oneByte :
    StartsEcho oneByte (bare oneByte) ∧ oneByte.reset.activeHigh = true ∧
      6 * oneByte.timeStep ≤ bitPeriod oneByte.uart.baudRate ∧
      (∃ c, Reaches quiet (bare oneByte) 0 c ∧ 0 * oneByte.timeStep ≤ Time.latest ∧
        (c.turn (quiet 0)).1.received.toList <+:
          SerialPart.echoes (c.turn (quiet 0)).1.fixture.model.received.toList) ∧
      ∃ report d, run quiet 0 (bare oneByte) 200 = some (report, d, 127 + 1) ∧
        127 * oneByte.timeStep ≤ Time.latest ∧ report.cause = .modelFinished ∧
        report.received.toList = [0x41] ∧
        report.received.toList = SerialPart.echoes d.fixture.model.received.toList := by
  have hb : StartsEcho oneByte (bare oneByte) := startsEcho_bare ⟨rfl, rfl, rfl, rfl⟩
  have hhigh : oneByte.reset.activeHigh = true := rfl
  have hlong : 6 * oneByte.timeStep ≤ bitPeriod oneByte.uart.baudRate := by decide
  have hrun : (run quiet 0 (bare oneByte) 200).map
      (fun r => (r.1.cause, r.1.received.toList, r.2.2)) =
        some (.modelFinished, [0x41], 127 + 1) := by
    decide +kernel
  obtain ⟨⟨report, d, next⟩, heq, hreport⟩ := Option.map_eq_some_iff.mp hrun
  simp only [Prod.mk.injEq] at hreport
  obtain ⟨hcause, hreceived, rfl⟩ := hreport
  have hstart : 0 * oneByte.timeStep ≤ Time.latest := by decide
  have hlast : 127 * oneByte.timeStep ≤ Time.latest := by decide
  obtain ⟨hevery, hend⟩ := received_echoes hb hhigh hlong quiet
  exact ⟨hb, hhigh, hlong, ⟨_, .start, hstart, hevery 0 _ .start hstart⟩, report, d, heq, hlast,
    hcause, hreceived, hend 200 report d 127 heq hlast hcause⟩

end Bench

end PinBench
