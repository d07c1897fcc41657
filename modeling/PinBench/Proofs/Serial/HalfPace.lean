import PinBench.Proofs.Serial.Hearing

/-! A line whose transmitter ticks at every second tick of its receiver.  The two ends keep times of
their own, so the receiver runs up to one step ahead of the transmitter in a frame, and may close it
while the stop bit is still on the line.  `Relaying` is what a tick of either kind keeps. -/

namespace PinBench.Serial

variable {t : Transmitter} {r : Receiver} {step lag time now : Nat} {owed received : List UInt8}

/-- The last tick of the transmitter was at its time `time`, and that of the receiver at its time
`now`, by `lag` later.  Of the bytes that are owed to the receiver some have been received, one may
be on its way, and the others wait. -/
inductive Relaying (t : Transmitter) (r : Receiver) (lag time now : Nat)
    (owed received : List UInt8) : Prop where
  /-- Both ends rest. -/
  | quiet (transmitter : t.Resting) (receiver : r.phase = .idle) (previous : r.previous = some true)
      (bytes : owed = received ++ t.pending)
  /-- Both ends are in the same frame. -/
  | frame (sent heard : Nat) (byte : UInt8) (transmitter : t.Sending sent byte time)
      (receiver : r.Hearing heard byte now) (times : heard + time + lag = now + sent)
      (previous : r.previous = some t.level) (bytes : owed = received ++ byte :: t.pending)
  /-- The receiver has closed the frame, the transmitter is about to. -/
  | closing (sent : Nat) (byte : UInt8) (transmitter : t.Sending sent byte time)
      (nearly : sent + frameBits * t.bitPeriod ≤ time + lag) (receiver : r.phase = .idle)
      (previous : r.previous = some true) (bytes : owed = received ++ t.pending)

theorem Relaying.received_prefix (h : Relaying t r lag time now owed received) :
    received <+: owed := by
  cases h with
  | quiet _ _ _ bytes => exact ⟨_, bytes.symm⟩
  | frame _ _ _ _ _ _ _ bytes => exact ⟨_, bytes.symm⟩
  | closing _ _ _ _ _ _ bytes => exact ⟨_, bytes.symm⟩

/-- Nothing is on its way to the receiver once the transmitter has nothing to do. -/
theorem Relaying.received_eq (h : Relaying t r lag time now owed received)
    (hidle : t.isIdle = true) : owed = received := by
  simp only [Transmitter.isIdle, Bool.and_eq_true, beq_iff_eq, List.isEmpty_iff] at hidle
  obtain ⟨hphase, hpending⟩ := hidle
  cases h with
  | quiet _ _ _ bytes => rw [bytes, hpending, List.append_nil]
  | frame _ _ _ ht => exact absurd hphase ht.phase_ne_idle
  | closing _ _ ht => exact absurd hphase ht.phase_ne_idle

/-- A transmitter that looks for work on a high line, and a receiver that waits for a start edge. -/
theorem relaying_begin {previous : Option Bool} (ht : t.Resting) (hr : r.phase = .idle)
    (hprev : r.previous = some true) (hpt : 0 < t.bitPeriod) (hpr : 2 ≤ r.bitPeriod)
    (hbytes : owed = received ++ t.pending) (time now : Nat)
    (hlevel : previous = some (t.begin time).level) :
    Relaying (t.begin time) { r.begin now (t.begin time).level with previous } 0 time now owed
      received := by
  rcases ht.begin_cases hpt time with ⟨byte, rest, hpend, hsending, hrest⟩ | ⟨hresting, hpend⟩
  · have hlow : (t.begin time).level = false := by
      rw [hsending.level, Nat.sub_self, Nat.zero_div]
      rfl
    rw [hlow]
    refine .frame time now byte hsending (Receiver.hearing_begin hr hprev hpr byte now).keep
      (by omega) hlevel ?_
    rw [hbytes, hpend, hrest]
  · rw [hresting.level] at hlevel ⊢
    rw [Receiver.begin_of_high]
    refine .quiet hresting hr hlevel ?_
    rw [hbytes, hpend]

/-- A tick of both ends.  The bytes `queued` before it are owed as well. -/
theorem Relaying.tick_both (h : Relaying t r step time now owed received)
    (hstep : 0 < step) (hperiod : t.bitPeriod = r.bitPeriod) (hlong : 6 * step ≤ r.bitPeriod)
    (queued : List UInt8) :
    Relaying ((t.enqueue queued).tick (time + 2 * step)).1
      (r.tick (now + step) ((t.enqueue queued).tick (time + 2 * step)).1.level).1 0
      (time + 2 * step) (now + step) (owed ++ queued)
      (received ++ (r.tick (now + step)
        ((t.enqueue queued).tick (time + 2 * step)).1.level).2.toList) := by
  have hpt : 0 < t.bitPeriod := by omega
  have hpr : 2 ≤ r.bitPeriod := by omega
  cases h with
  | quiet ht hr hprev hbytes =>
    rw [(ht.enqueue queued).tick, Receiver.tick_idle hr, Option.toList_none, List.append_nil]
    refine relaying_begin (ht.enqueue queued) hr hprev hpt hpr ?_ _ _ rfl
    rw [hbytes, List.append_assoc]
    rfl
  | frame sent heard byte ht hr htimes hprev hbytes =>
    have hsent := ht.begun
    have hheard := hr.begun
    have hqueued := ht.enqueue queued
    have hgapt : time + 2 * step ≤ time + (t.enqueue queued).bitPeriod := by
      show _ ≤ time + t.bitPeriod
      omega
    have hgapr : now + step ≤ now + r.bitPeriod := by omega
    by_cases hdone : sent + frameBits * (t.enqueue queued).bitPeriod ≤ time + 2 * step
    · -- Both ends close the frame, and the next one may start at once.
      have hheardDone : heard + frameBits * r.bitPeriod ≤ now + step := by
        rw [← hperiod]
        have : frameBits * (t.enqueue queued).bitPeriod = frameBits * t.bitPeriod := rfl
        omega
      obtain ⟨hhigh, hresting⟩ := hqueued.resting_last hgapt hdone
      have hprevHigh : r.previous = some true := by rw [hprev, ← hhigh]; rfl
      rw [hqueued.tick_last hgapt hdone, hr.tick_last hgapr hheardDone]
      refine relaying_begin (r := { r with phase := .idle }) hresting rfl hprevHigh hpt hpr ?_ _ _ rfl
      simp [hbytes, Transmitter.enqueue]
    · have hun : time + 2 * step - sent < frameBits * (t.enqueue queued).bitPeriod := by omega
      have hunHeard : now + step - heard < frameBits * r.bitPeriod := by
        rw [← hperiod]
        have : frameBits * (t.enqueue queued).bitPeriod = frameBits * t.bitPeriod := rfl
        omega
      obtain ⟨hsending, -, hpending, hsame⟩ := hqueued.tick (by omega) hgapt hun
      have hline : ((t.enqueue queued).tick (time + 2 * step)).1.level =
          slotLevel byte ((time + 2 * step - sent) / r.bitPeriod) := by
        rw [hsending.level, hsame, ← hperiod]
        rfl
      obtain ⟨hhearing, hnone⟩ := hr.tick (by omega) hunHeard (by omega) (by omega) hline
      rw [hnone, Option.toList_none, List.append_nil]
      refine .frame sent heard byte hsending hhearing (by omega) (Receiver.tick_previous _ _ _) ?_
      rw [hpending, hbytes]
      simp [Transmitter.enqueue]
  | closing sent byte ht hnearly hr hprev hbytes =>
    have hqueued := ht.enqueue queued
    have hgap : time + 2 * step ≤ time + (t.enqueue queued).bitPeriod := by
      show _ ≤ time + t.bitPeriod
      omega
    have hdone : sent + frameBits * (t.enqueue queued).bitPeriod ≤ time + 2 * step := by
      show sent + frameBits * t.bitPeriod ≤ _
      omega
    obtain ⟨-, hresting⟩ := hqueued.resting_last hgap hdone
    rw [hqueued.tick_last hgap hdone, Receiver.tick_idle hr, Option.toList_none, List.append_nil]
    refine relaying_begin hresting hr hprev hpt hpr ?_ _ _ rfl
    simp [hbytes, Transmitter.enqueue]

theorem Relaying.tick_receiver (h : Relaying t r 0 time now owed received)
    (hperiod : t.bitPeriod = r.bitPeriod) (hlong : 6 * step ≤ r.bitPeriod) :
    Relaying t (r.tick (now + step) t.level).1 step time (now + step) owed
      (received ++ (r.tick (now + step) t.level).2.toList) := by
  cases h with
  | quiet ht hr hprev hbytes =>
    rw [ht.level, Receiver.tick_idle hr, Receiver.begin_of_high]
    exact .quiet ht hr rfl (by simpa using hbytes)
  | frame sent heard byte ht hr htimes hprev hbytes =>
    have hsent := ht.begun
    have hheard := hr.begun
    have hgap : now + step ≤ now + r.bitPeriod := by omega
    by_cases hdone : heard + frameBits * r.bitPeriod ≤ now + step
    · -- The receiver closes the frame on the stop bit.
      have hover : frameBits * t.bitPeriod ≤ now + step - heard := by rw [hperiod]; omega
      have hnine : (time - sent) / t.bitPeriod = 9 :=
        place_eq_nine ht.unfinished hover (by omega)
      have hhigh : t.level = true := by rw [ht.level, hnine, slotLevel_nine]
      rw [hhigh, hr.tick_last hgap hdone, Receiver.begin_of_high]
      refine .closing sent byte ht (by rw [hperiod]; omega) rfl rfl ?_
      simpa using hbytes
    · have hline : t.level = slotLevel byte ((time - sent) / r.bitPeriod) := by
        rw [ht.level, hperiod]
      have hun : now + step - heard < frameBits * r.bitPeriod := by omega
      obtain ⟨hhearing, hnone⟩ := hr.tick (by omega) hun (by omega) (by omega) hline
      rw [hnone]
      refine .frame sent heard byte ht hhearing (by omega) (Receiver.tick_previous _ _ _) ?_
      simpa using hbytes
  | closing sent byte ht hnearly =>
    -- Without a lag a frame that is nearly over is over.
    have hbegun := ht.begun
    have hun := ht.unfinished
    omega

end PinBench.Serial
