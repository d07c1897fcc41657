import PinBench.Proofs.Bench.Mirror
import PinBench.Proofs.Serial.Sampling

/-! The way in, from the bench to the echoing model.  The model's receiver sees the scripted line at
rising clock edges alone, so at every second tick of the bench's transmitter.  If `framePace` is
even every script arrives as it is.  If it is odd, frames are lost: the first of them is the second
or the third frame of a script (`delivers_iff`). -/

namespace PinBench

open Model Serial

namespace EchoLoop

variable {p : EchoSetup} {l : EchoLoop} {n : Nat}

/-- The level of the line into the model right before iteration `n`. -/
def lineBefore (p : EchoSetup) (n : Nat) : Bool := (before p n).part.uartRx

theorem scripted_before (p : EchoSetup) (hstep : 0 < p.timeStep)
    (hlong : p.timeStep ≤ bitPeriod p.baudRate) (n : Nat) :
    Scripted p.script p.timeStep (bitPeriod p.baudRate) n (before p n).link.transmitter
      (before p n).link.sent := by
  induction n with
  | zero => exact scripted_start _ _ _
  | succ n ih => exact ih.tick (timed_before p n).1.linkTransmitter hstep hlong

theorem scriptLine_lineBefore (p : EchoSetup) (hstep : 0 < p.timeStep)
    (hlong : p.timeStep ≤ bitPeriod p.baudRate) :
    ScriptLine p.script p.timeStep (bitPeriod p.baudRate) (lineBefore p) where
  early n hn := by
    rw [lineBefore, (timed_before p n).1.uartRx]
    exact (scripted_before p hstep hlong n).level_early hn
  frame k d byte hbyte hd := by
    rw [lineBefore, (timed_before p _).1.uartRx]
    exact (scripted_before p hstep hlong _).level_frame (timed_before p _).1.linkTransmitter hd
      hbyte
  late n hn := by
    rw [lineBefore, (timed_before p n).1.uartRx]
    exact (scripted_before p hstep hlong n).level_late hn

/-- What holds after each sample of a receiver that samples `line` after every second tick. -/
structure Kept (line : Nat → Bool) (step period : Nat)
    (Q : Nat → Receiver → Nat → List UInt8 → Prop) : Prop where
  first : ∀ i r time, i < frameStart step period 0 → r.phase = .idle → Q i r time []
  next : ∀ i r time received, Q i r time received → r.previous = some (line i) →
    r.bitPeriod = period →
    Q (i + 2) (r.tick (time + 2 * step) (line (i + 2))).1 (time + 2 * step)
      (received ++ (r.tick (time + 2 * step) (line (i + 2))).2.toList)

/-- Right before iteration `n` the model has not sampled its line yet, or its last sample was in
iteration `i`, one or two before. -/
inductive Listening (Q : Nat → Receiver → Nat → List UInt8 → Prop) (p : EchoSetup) (n : Nat)
    (l : EchoLoop) : Prop where
  | held (early : n * p.timeStep < p.releaseTime + p.timeStep) (rst : l.part.rst = true)
      (receiver : l.part.receiver.phase = .idle) (cycles : l.part.cycles = 0)
      (received : l.part.received = #[])
  | armed (early : n * p.timeStep < p.releaseTime + 2 * p.timeStep) (rst : l.part.rst = false)
      (clk : l.part.clk = true) (receiver : l.part.receiver.phase = .idle)
      (cycles : l.part.cycles = 0) (received : l.part.received = #[])
  | sampled (i : Nat) (place : n = i + if l.part.clk then 2 else 1) (rst : l.part.rst = false)
      (previous : l.part.receiver.previous = some (lineBefore p i))
      (holds : Q i l.part.receiver (l.part.cycles * l.part.clockPeriod) l.part.received.toList)

theorem listening_start (Q : Nat → Receiver → Nat → List UInt8 → Prop) (p : EchoSetup)
    (hstep : 0 < p.timeStep) : (start p).Listening Q p 0 :=
  .held (by omega) rfl rfl rfl rfl

theorem toggle_turn_of_high {now releaseTime : Nat}
    (h : (l.part.rst && decide (now < releaseTime)) = false) (hclk : l.part.clk = true)
    (hlast : l.part.lastClk = false) :
    (l.turn now releaseTime).toggle.part.receiver =
        (l.part.receiver.tick ((l.part.cycles + 1) * l.part.clockPeriod) l.part.uartRx).1 ∧
      (l.turn now releaseTime).toggle.part.received.toList = l.part.received.toList ++
        (l.part.receiver.tick ((l.part.cycles + 1) * l.part.clockPeriod) l.part.uartRx).2.toList ∧
      (l.turn now releaseTime).toggle.part.cycles = l.part.cycles + 1 ∧
      (l.turn now releaseTime).toggle.part.clockPeriod = l.part.clockPeriod ∧
      (l.turn now releaseTime).toggle.part.rst = false ∧
      (l.turn now releaseTime).toggle.part.clk = false := by
  rw [turn, settle_of_high h hclk hlast, SerialPart.rise_eq]
  refine ⟨rfl, ?_, rfl, rfl, rfl, ?_⟩
  · exact Array.toList_append
  · show (!l.part.clk) = false
    rw [hclk]
    rfl

theorem toggle_turn_of_low {now releaseTime : Nat}
    (h : (l.part.rst && decide (now < releaseTime)) = false) (hclk : l.part.clk = false) :
    (l.turn now releaseTime).toggle.part.receiver = l.part.receiver ∧
      (l.turn now releaseTime).toggle.part.received = l.part.received ∧
      (l.turn now releaseTime).toggle.part.cycles = l.part.cycles ∧
      (l.turn now releaseTime).toggle.part.clockPeriod = l.part.clockPeriod ∧
      (l.turn now releaseTime).toggle.part.rst = false ∧
      (l.turn now releaseTime).toggle.part.clk = true := by
  rw [turn, settle_of_low h hclk]
  refine ⟨rfl, rfl, rfl, rfl, rfl, ?_⟩
  show (!l.part.clk) = true
  rw [hclk]
  rfl

/-- No frame starts before the model listens. -/
theorem lt_frameStart_of_early {now : Nat} (hstep : 0 < p.timeStep)
    (hrelease : p.releaseTime + 2 * p.timeStep ≤ bitPeriod p.baudRate)
    (early : now * p.timeStep < p.releaseTime + 2 * p.timeStep) (k : Nat) :
    now < frameStart p.timeStep (bitPeriod p.baudRate) k := by
  have hn : now < ticksFor p.timeStep (bitPeriod p.baudRate) :=
    (lt_ticksFor_iff hstep).mpr (Nat.lt_of_lt_of_le early hrelease)
  simp only [frameStart]
  omega

section

variable {Q : Nat → Receiver → Nat → List UInt8 → Prop}

/-- The first sample of all comes before the first frame. -/
theorem listening_first (hQ : Kept (lineBefore p) p.timeStep (bitPeriod p.baudRate) Q)
    (hstep : 0 < p.timeStep) (hlong : 6 * p.timeStep ≤ bitPeriod p.baudRate)
    (hrelease : p.releaseTime + 2 * p.timeStep ≤ bitPeriod p.baudRate)
    (hout : ((before p n).part.rst && decide (n * p.timeStep < p.releaseTime)) = false)
    (hclk : (before p n).part.clk = true)
    (early : n * p.timeStep < p.releaseTime + 2 * p.timeStep)
    (hr : (before p n).part.receiver.phase = .idle) (hreceived : (before p n).part.received = #[]) :
    (before p (n + 1)).Listening Q p (n + 1) := by
  have hearly := lt_frameStart_of_early hstep hrelease early 0
  have hhigh : (before p n).part.uartRx = true :=
    (scriptLine_lineBefore p hstep (by omega)).early n hearly
  obtain ⟨hreceiver, hbytes, hcycles, hperiod, hrst, hlow⟩ :=
    toggle_turn_of_high hout hclk ((timed_before p n).2 hclk)
  have hidle : (before p (n + 1)).part.receiver.phase = .idle := by
    rw [before, hreceiver, hhigh, Receiver.tick_idle hr, Receiver.begin_of_high]
    exact hr
  have hnone : (before p (n + 1)).part.received.toList = [] := by
    rw [before, hbytes, hreceived, Receiver.tick_idle hr]
    rfl
  refine .sampled n ?_ hrst ?_ ?_
  · rw [before, hlow]
    rfl
  · rw [before, hreceiver]
    rfl
  · rw [hnone]
    exact hQ.first n _ _ hearly hidle

theorem listening_before (hQ : Kept (lineBefore p) p.timeStep (bitPeriod p.baudRate) Q)
    (hstep : 0 < p.timeStep) (hlong : 6 * p.timeStep ≤ bitPeriod p.baudRate)
    (hrelease : p.releaseTime + 2 * p.timeStep ≤ bitPeriod p.baudRate) (n : Nat) :
    (before p n).Listening Q p n := by
  induction n with
  | zero => exact listening_start Q p hstep
  | succ n ih =>
    have htimed := timed_before p n
    cases ih with
    | held early hrst hr hcycles hreceived =>
      cases hout : (before p n).part.rst && decide (n * p.timeStep < p.releaseTime) with
      | true =>
        have hnow : n * p.timeStep < p.releaseTime := by simpa [hrst] using hout
        rw [before, turn, settle_of_reset hout]
        refine .held ?_ rfl rfl hcycles hreceived
        rw [Nat.succ_mul]
        omega
      | false =>
        cases hclk : (before p n).part.clk with
        | true =>
          exact listening_first hQ hstep hlong hrelease hout hclk (by omega) hr hreceived
        | false =>
          obtain ⟨hreceiver, hbytes, hcount, -, hlow, hhigh⟩ := toggle_turn_of_low hout hclk
          refine .armed ?_ hlow hhigh ?_ (hcount.trans hcycles) (hbytes.trans hreceived)
          · rw [Nat.succ_mul]
            omega
          · rw [before, hreceiver]
            exact hr
    | armed early hrst hclk hr hcycles hreceived =>
      have hout : ((before p n).part.rst && decide (n * p.timeStep < p.releaseTime)) = false := by
        rw [hrst, Bool.false_and]
      exact listening_first hQ hstep hlong hrelease hout hclk early hr hreceived
    | sampled i place hrst hprev hholds =>
      have hout : ((before p n).part.rst && decide (n * p.timeStep < p.releaseTime)) = false := by
        rw [hrst, Bool.false_and]
      cases hclk : (before p n).part.clk with
      | true =>
        obtain ⟨hreceiver, hbytes, hcycles, hperiod, hrst', hlow⟩ :=
          toggle_turn_of_high hout hclk (htimed.2 hclk)
        rw [hclk, if_pos rfl] at place
        have hnext := hQ.next i _ _ _ hholds hprev htimed.1.partReceiver
        rw [← place] at hnext
        refine .sampled n ?_ hrst' ?_ ?_
        · rw [before, hlow]
          rfl
        · rw [before, hreceiver]
          rfl
        · have htime : ((before p n).part.cycles + 1) * (before p n).part.clockPeriod =
              (before p n).part.cycles * (before p n).part.clockPeriod + 2 * p.timeStep := by
            rw [Nat.succ_mul, htimed.1.clockPeriod]
          rw [before, hreceiver, hbytes, hcycles, hperiod, htime]
          exact hnext
      | false =>
        obtain ⟨hreceiver, hbytes, hcycles, hperiod, hrst', hhigh⟩ := toggle_turn_of_low hout hclk
        rw [hclk] at place
        refine .sampled i ?_ hrst' ?_ ?_
        · rw [before, hhigh, place]
          rfl
        · rw [before, hreceiver]
          exact hprev
        · rw [before, hreceiver, hbytes, hcycles, hperiod]
          exact hholds

end

theorem kept_following (p : EchoSetup) (hstep : 0 < p.timeStep)
    (hlong : 6 * p.timeStep ≤ bitPeriod p.baudRate)
    (heven : framePace p.timeStep (bitPeriod p.baudRate) % 2 = 0) :
    Kept (lineBefore p) p.timeStep (bitPeriod p.baudRate) fun i r time received =>
      ∃ late, late ≤ 1 ∧
        Following p.script p.timeStep (bitPeriod p.baudRate) late i r time received where
  first i r time hearly hr := by
    refine ⟨(i + frameStart p.timeStep (bitPeriod p.baudRate) 0) % 2, by omega, ?_⟩
    exact .waiting (by omega) (by omega) hr rfl
  next i r time received h hprev hp := by
    obtain ⟨late, hlate, h⟩ := h
    have hline := scriptLine_lineBefore p hstep (by omega)
    exact ⟨late, hlate, h.sample hline hprev hp hstep hlong hlate heven⟩

theorem kept_skipping (p : EchoSetup) {count : Nat} (hscript : p.script = List.replicate count 0)
    (hstep : 0 < p.timeStep) (hlong : 6 * p.timeStep ≤ bitPeriod p.baudRate)
    (hodd : framePace p.timeStep (bitPeriod p.baudRate) % 2 = 1) :
    Kept (lineBefore p) p.timeStep (bitPeriod p.baudRate) fun i r time received =>
      Skipping count p.timeStep (bitPeriod p.baudRate) i r time received.length where
  first i r time hearly hr := by
    refine .waiting ((i + frameStart p.timeStep (bitPeriod p.baudRate) 0) % 2) (by omega) ?_ ?_ hr
      rfl
    · omega
    · omega
  next i r time received h hprev hp := by
    have hline := scriptLine_lineBefore p hstep (by omega)
    rw [hscript] at hline
    rw [List.length_append]
    exact h.sample hline hprev hp hstep hlong hodd

/-- At an even pace every script arrives as it is, and promptly. -/
theorem after_delivered (p : EchoSetup) (hstep : 0 < p.timeStep)
    (hlong : 6 * p.timeStep ≤ bitPeriod p.baudRate)
    (hrelease : p.releaseTime + 2 * p.timeStep ≤ bitPeriod p.baudRate)
    (heven : framePace p.timeStep (bitPeriod p.baudRate) % 2 = 0) (n : Nat) :
    (after p n).part.received.toList <+: p.script ∧
      (after p n).link.sent ≤ (after p n).part.received.size + 1 := by
  have hlistening :=
    listening_before (kept_following p hstep hlong heven) hstep hlong hrelease (n + 1)
  obtain ⟨hlen, hsent⟩ := (scripted_before p hstep (by omega) (n + 1)).sent_le
  show (before p (n + 1)).part.received.toList <+: p.script ∧
    (before p (n + 1)).link.sent ≤ (before p (n + 1)).part.received.size + 1
  cases hlistening with
  | held early _ _ _ hreceived =>
    have harmed : (n + 1) * p.timeStep < p.releaseTime + 2 * p.timeStep := by omega
    have := lt_frameStart_of_early hstep hrelease harmed (before p (n + 1)).link.sent
    rw [hreceived]
    exact ⟨List.nil_prefix, by omega⟩
  | armed early _ _ _ _ hreceived =>
    have := lt_frameStart_of_early hstep hrelease early (before p (n + 1)).link.sent
    rw [hreceived]
    exact ⟨List.nil_prefix, by omega⟩
  | sampled i place _ _ holds =>
    obtain ⟨late, hlate, hfollowing⟩ := holds
    refine ⟨hfollowing.received_prefix, ?_⟩
    rcases hsent with hzero | hover
    · omega
    · have hi : n + 1 ≤ i + 2 := by
        split at place <;> omega
      have := hfollowing.le_received hstep hlong hlate hlen (Nat.le_trans hover hi)
      rwa [Array.length_toList] at this

/-- At an odd pace about half of the frames of a script of zeros are lost. -/
theorem after_lost (p : EchoSetup) {count : Nat} (hscript : p.script = List.replicate count 0)
    (hstep : 0 < p.timeStep) (hlong : 6 * p.timeStep ≤ bitPeriod p.baudRate)
    (hrelease : p.releaseTime + 2 * p.timeStep ≤ bitPeriod p.baudRate)
    (hodd : framePace p.timeStep (bitPeriod p.baudRate) % 2 = 1)
    (hn : n + 1 = frameStart p.timeStep (bitPeriod p.baudRate) count) :
    (after p n).link.sent = count ∧ 2 * (after p n).part.received.size ≤ count + 1 := by
  have hlistening :=
    listening_before (kept_skipping p hscript hstep hlong hodd) hstep hlong hrelease (n + 1)
  have hscripted := scripted_before p hstep (by omega) (n + 1)
  rw [hn] at hscripted
  have hlen : count ≤ p.script.length := by simp [hscript]
  have hsent := hscripted.sent_eq hlen (framePace_pos hstep (by omega))
  rw [← hn] at hsent
  refine ⟨hsent, ?_⟩
  show 2 * (before p (n + 1)).part.received.size ≤ count + 1
  cases hlistening with
  | held _ _ _ _ hreceived =>
    rw [hreceived]
    exact Nat.zero_le _
  | armed _ _ _ _ _ hreceived =>
    rw [hreceived]
    exact Nat.zero_le _
  | sampled i place _ _ holds =>
    have hi : i < frameStart p.timeStep (bitPeriod p.baudRate) count := by
      split at place <;> omega
    have := holds.received_le hi
    rwa [Array.length_toList] at this

/-- The model has seen the end of the session exactly if it has received the byte. -/
theorem endSeen_before (p : EchoSetup) (n : Nat) :
    (before p n).part.endSeen = (before p n).part.received.toList.any (· == endOfTransmission) := by
  induction n with
  | zero => rfl
  | succ n ih =>
    cases hrst : (before p n).part.rst && decide (n * p.timeStep < p.releaseTime) with
    | true =>
      rw [before, turn, settle_of_reset hrst]
      exact ih
    | false =>
      cases hclk : (before p n).part.clk with
      | false =>
        rw [before, turn, settle_of_low hrst hclk]
        exact ih
      | true =>
        rw [before, turn, settle_of_high hrst hclk ((timed_before p n).2 hclk), SerialPart.rise_eq]
        simp only [toggle, exchange, ih, Array.toList_append, List.any_append]

end EchoLoop

namespace Bench

/-- The bytes that the serial link has sent to the end. -/
def sent {M : Type} (b : Bench M) : Nat := (b.serial.map (·.sent)).getD 0

/-- Every script that is sent at this rate arrives as it is: after every iteration of every run the
model has received a prefix of the script, and lacks at most one of the bytes sent. -/
def Delivers (clock : Config.Clock) (reset : Config.Reset) (baudRate : UInt32) : Prop :=
  ∀ (config : Config) (b : Bench EchoSoc) (schedule : Schedule) (n : Nat) (c : Bench EchoSoc),
    config.clock = clock → config.reset = reset → config.uart.baudRate = baudRate →
    config.jtag.enabled = false → config.telemetry.enabled = false →
    StartsEcho config b → Reaches schedule b n c → n * config.timeStep ≤ Time.latest →
    (c.turn (schedule n)).1.fixture.model.received.toList <+: config.uart.script ∧
      (c.turn (schedule n)).1.sent ≤ (c.turn (schedule n)).1.fixture.model.received.size + 1

variable {config : Config}

/-- What an iteration of a run has sent to the model, and what has arrived. -/
theorem turn_sent {b c : Bench EchoSoc} {schedule : Schedule} {n : Nat} (hb : StartsEcho config b)
    (hhigh : config.reset.activeHigh = true) (hc : Reaches schedule b n c)
    (hn : n * config.timeStep ≤ Time.latest) :
    (c.turn (schedule n)).1.sent = (EchoLoop.after (.ofConfig config) n).link.sent ∧
      (c.turn (schedule n)).1.fixture.model.received =
        (EchoLoop.after (.ofConfig config) n).part.received := by
  obtain ⟨hserial, hreceived, -⟩ := turn_mirrors hb hhigh hc hn
  refine ⟨?_, hreceived⟩
  rw [sent, hserial]
  rfl

/-- A quiet run of a bare bench goes on as long as the model has not received the end of the
session. -/
theorem exists_reaches (hbare : Bare config) (hhigh : config.reset.activeHigh = true)
    (htimeout : config.timeout = 0) {n : Nat} (hn : n * config.timeStep ≤ Time.latest)
    (hend : ∀ m < n, endOfTransmission ∉
      (EchoLoop.after (.ofConfig config) m).part.received.toList) :
    ∃ c, Reaches quiet (bare config) n c ∧ c.probe = none := by
  induction n with
  | zero => exact ⟨_, .start, rfl⟩
  | succ n ih =>
    rw [Nat.succ_mul] at hn
    obtain ⟨c, hc, hprobe⟩ := ih (by omega) fun m hm => hend m (Nat.lt_succ_of_lt hm)
    obtain ⟨hconfig, hnow, hmirrors⟩ :=
      mirrors_of_reaches (startsEcho_bare hbare) hhigh hc (by omega)
    have hmid := midway_mirrors hmirrors (by rw [hconfig]; exact hhigh) (quiet n)
    rw [hnow, hconfig] at hmid
    have hpart : (c.midway (quiet n)).1.fixture.model.serialPart =
        (EchoLoop.after (.ofConfig config) n).part := hmid.part
    have hunfinished : (c.midway (quiet n)).1.fixture.finished = false := by
      show (c.midway (quiet n)).1.fixture.model.serialPart.finished = false
      have hseen : (EchoLoop.after (.ofConfig config) n).part.endSeen =
          (EchoLoop.after (.ofConfig config) n).part.received.toList.any
            (· == endOfTransmission) := EchoLoop.endSeen_before (.ofConfig config) (n + 1)
      have hnever : (EchoLoop.after (.ofConfig config) n).part.received.toList.any
          (· == endOfTransmission) = false := by
        rw [List.any_eq_false]
        rintro byte hbyte hsame
        rw [eq_of_beq hsame] at hbyte
        exact hend n (Nat.lt_succ_self n) hbyte
      rw [hpart, SerialPart.finished, hseen, hnever, Bool.false_and]
    obtain ⟨hmidConfig, hmidTime, hmidProbe⟩ := midway_eq c (quiet n)
    have hnone : (c.midway (quiet n)).1.cause? (quiet n).stop (c.midway (quiet n)).2 = none := by
      rw [midway_request hprobe, cause?, hunfinished, hmidConfig, hconfig, htimeout]
      rfl
    obtain ⟨counter, fixture, hadvance, -⟩ := advance_eq (c.midway (quiet n)).1
    refine ⟨_, hc.turn (turn_of_none hnone), ?_⟩
    rw [hadvance]
    rw [hprobe] at hmidProbe
    exact Option.not_isSome_iff_eq_none.mp (by rw [hmidProbe]; decide)

theorem bitPeriod_le (baudRate : UInt32) : bitPeriod baudRate ≤ nanosPerSecond :=
  Nat.div_le_self _ _

/-- The first frames of a script are over long before time stops. -/
theorem frameStart_mul_le {step : Nat} {baudRate : UInt32} (hlong : 6 * step ≤ bitPeriod baudRate)
    {n : Nat} (hn : n + 1 = frameStart step (bitPeriod baudRate) 4) : n * step ≤ Time.latest := by
  have hfirst := ticksFor_mul_le step (bitPeriod baudRate)
  have hpace := ticksFor_mul_le step (frameBits * bitPeriod baudRate)
  have hperiod := bitPeriod_le baudRate
  simp only [frameStart, framePace] at hn
  have hsum : n * step = ticksFor step (bitPeriod baudRate) * step +
      4 * (ticksFor step (frameBits * bitPeriod baudRate) * step) := by
    have hn' : n = ticksFor step (bitPeriod baudRate) +
        4 * ticksFor step (frameBits * bitPeriod baudRate) := by omega
    rw [hn', Nat.add_mul, Nat.mul_assoc]
  rw [hsum]
  simp only [Time.latest, UInt64.size, nanosPerSecond, frameBits] at *
  omega

/-- At an odd pace a script of four zeros does not arrive as it is. -/
theorem not_delivers_of_odd (config : Config) (hbare : Bare config)
    (hhigh : config.reset.activeHigh = true) (htimeout : config.timeout = 0)
    (hscript : config.uart.script = List.replicate 4 0) (hstep : 0 < config.timeStep)
    (hlong : 6 * config.timeStep ≤ bitPeriod config.uart.baudRate)
    (hrelease : config.reset.releaseTime.toNat + 2 * config.timeStep ≤
      bitPeriod config.uart.baudRate)
    (hodd : framePace config.timeStep (bitPeriod config.uart.baudRate) % 2 = 1) :
    ¬Delivers config.clock config.reset config.uart.baudRate := by
  intro hall
  have hb := startsEcho_bare hbare
  obtain ⟨last, hlast⟩ : ∃ last, last + 1 =
      frameStart config.timeStep (bitPeriod config.uart.baudRate) 4 := by
    refine ⟨frameStart config.timeStep (bitPeriod config.uart.baudRate) 4 - 1, ?_⟩
    simp only [frameStart]
    omega
  have htime := frameStart_mul_le hlong hlast
  -- The run does not end before: what arrives is a prefix of the script, so it has no end in it.
  have hreaches : ∀ n ≤ last, ∃ c, Reaches quiet (bare config) n c := by
    intro n
    induction n using Nat.strongRecOn with
    | ind n ih =>
      intro hn
      have hmul : n * config.timeStep ≤ last * config.timeStep := Nat.mul_le_mul_right _ hn
      obtain ⟨c, hc, -⟩ := exists_reaches hbare hhigh htimeout (Nat.le_trans hmul htime)
        fun m hm hmem => by
          obtain ⟨c, hc⟩ := ih m hm (by omega)
          have hm' : m * config.timeStep ≤ last * config.timeStep :=
            Nat.mul_le_mul_right _ (by omega)
          obtain ⟨-, hreceived⟩ := turn_sent hb hhigh hc (Nat.le_trans hm' htime)
          obtain ⟨harrived, -⟩ := hall config _ quiet m c rfl rfl rfl hbare.jtag hbare.telemetry hb
            hc (Nat.le_trans hm' htime)
          rw [hreceived, hscript] at harrived
          have := List.eq_of_mem_replicate (harrived.subset hmem)
          revert this
          decide
      exact ⟨c, hc⟩
  obtain ⟨c, hc⟩ := hreaches last (Nat.le_refl _)
  obtain ⟨hsent, hreceived⟩ := turn_sent hb hhigh hc htime
  obtain ⟨-, hprompt⟩ :=
    hall config _ quiet last c rfl rfl rfl hbare.jtag hbare.telemetry hb hc htime
  obtain ⟨hfour, hfew⟩ :=
    EchoLoop.after_lost (.ofConfig config) hscript hstep hlong hrelease hodd hlast
  rw [hsent, hreceived, hfour] at hprompt
  omega

/-- The exact condition: at a rate whose bits are at least six time steps long, with the model out
of reset two time steps before the first frame, scripts arrive as they are if and only if frames
start an even number of iterations apart. -/
theorem delivers_iff {clock : Config.Clock} {reset : Config.Reset} {baudRate : UInt32}
    (hstep : 1 ≤ clock.timeStep.toNat) (hlong : 6 * clock.timeStep.toNat ≤ bitPeriod baudRate)
    (hhigh : reset.activeHigh = true)
    (hrelease : reset.releaseTime.toNat + 2 * clock.timeStep.toNat ≤ bitPeriod baudRate) :
    Delivers clock reset baudRate ↔
      framePace clock.timeStep.toNat (bitPeriod baudRate) % 2 = 0 := by
  constructor
  · intro hall
    refine (Nat.mod_two_eq_zero_or_one _).resolve_right fun hodd => ?_
    have hsame : clock.timeStep.toNat = max clock.timeStep.toNat 1 := (Nat.max_eq_left hstep).symm
    rw [hsame] at hstep hlong hrelease hodd
    exact not_delivers_of_odd { Config.standard with
        clock, reset, uart := ⟨baudRate, List.replicate 4 0⟩, stimulus := ⟨false, 0⟩ }
      ⟨rfl, rfl, rfl, rfl⟩ hhigh rfl rfl hstep hlong hrelease hodd hall
  · rintro heven config b schedule n c rfl rfl rfl - - hb hc hn
    have hsame : config.timeStep = config.clock.timeStep.toNat := Nat.max_eq_left hstep
    obtain ⟨hsent, hreceived⟩ := turn_sent hb hhigh hc hn
    rw [hsent, hreceived]
    rw [← hsame] at hstep hlong hrelease heven
    exact EchoLoop.after_delivered (.ofConfig config) hstep hlong hrelease heven n

/-- With the usual clock and reset the usual rate delivers, and half of it does not. -/
theorem delivers_iff_usualClock :
    let clock := Config.standard.clock
    let reset := Config.standard.reset
    (1 ≤ clock.timeStep.toNat ∧ reset.activeHigh = true ∧
      6 * clock.timeStep.toNat ≤ bitPeriod 57600 ∧
      reset.releaseTime.toNat + 2 * clock.timeStep.toNat ≤ bitPeriod 57600) ∧
    Delivers clock reset 115200 ∧ ¬Delivers clock reset 57600 := by
  intro clock reset
  have hstep : 1 ≤ clock.timeStep.toNat := by decide
  have hhigh : reset.activeHigh = true := rfl
  have hlong : 6 * clock.timeStep.toNat ≤ bitPeriod 57600 := by decide
  have hrelease : reset.releaseTime.toNat + 2 * clock.timeStep.toNat ≤ bitPeriod 57600 := by decide
  refine ⟨⟨hstep, hhigh, hlong, hrelease⟩, ?_, ?_⟩
  · exact (delivers_iff hstep (by decide) hhigh (by decide)).mpr (by decide)
  · rw [delivers_iff hstep hlong hhigh hrelease]
    decide

end Bench

end PinBench
