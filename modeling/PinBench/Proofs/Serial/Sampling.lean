import PinBench.Proofs.Serial.Hearing
import PinBench.Proofs.Serial.Script

/-! A receiver that sees a scripted line at every second tick of its transmitter.  It finds the
start edge of a frame on its first sample after it, so `late` by no tick or by one, and ends the
frame on the first sample that is ten bits after that.

* If `framePace` is even, every frame is found just as late as the first one, and the sample that
  ends a frame is the one that finds the next: `Following`.
* If it is odd, frames are found late by turns.  A frame that is found one tick late ends two ticks
  after the next one has started, so the next start edge is lost: `Skipping`. -/

namespace PinBench.Serial

variable {script : List UInt8} {step period late i k j edge time : Nat} {byte : UInt8}
  {r : Receiver} {received : List UInt8} {line : Nat → Bool}

theorem le_framePace (hstep : 0 < step) (hlong : 6 * step ≤ period) :
    60 ≤ framePace step period := by
  refine Nat.succ_le_of_lt ((lt_framePace_iff hstep).mpr ?_)
  simp only [frameBits]
  omega

/-- The last two ticks of a frame, and more, are in its last place. -/
theorem place_last {d : Nat} (hstep : 0 < step) (hlong : 6 * step ≤ period)
    (hd : d < framePace step period) (hlast : framePace step period ≤ d + 3) :
    d * step / period = 9 := by
  have hover : frameBits * period ≤ framePace step period * step := framePace_mul hstep
  have hle : framePace step period * step ≤ (d + 3) * step := Nat.mul_le_mul_right _ hlast
  have hlt := (lt_framePace_iff hstep).mp hd
  rw [Nat.add_mul] at hle
  simp only [frameBits] at hover hlt
  exact place_eq (by omega) (by omega)

/-- The first ticks of a frame are in its first place. -/
theorem place_first {d : Nat} (hstep : 0 < step) (hlong : 6 * step ≤ period) (hd : d ≤ 2) :
    d * step / period = 0 := by
  have : d * step ≤ 2 * step := Nat.mul_le_mul_right _ hd
  exact Nat.div_eq_of_lt (by omega)

/-- A sample inside the frame that the receiver has found `late` ticks after its start. -/
theorem Receiver.Hearing.sample (h : r.Hearing edge byte time) (htime : edge + j * step = time)
    (hp : r.bitPeriod = period) (hstep : 0 < step) (hlong : 6 * step ≤ period) (hlate : late ≤ 1)
    (hj : late + (j + 2) < framePace step period) :
    (r.tick (time + 2 * step) (slotLevel byte ((late + (j + 2)) * step / period))).1.Hearing edge
        byte (time + 2 * step) ∧
      (r.tick (time + 2 * step) (slotLevel byte ((late + (j + 2)) * step / period))).2 = none := by
  have hinside := (lt_framePace_iff hstep).mp hj
  have hshift : late * step ≤ 1 * step := Nat.mul_le_mul_right _ hlate
  rw [Nat.add_mul, Nat.add_mul] at hinside
  have hun : time + 2 * step - edge < frameBits * r.bitPeriod := by
    rw [hp]
    omega
  refine h.tick (by omega) hun ?_ ?_ (by rw [hp])
  · rw [hp, Nat.add_mul, Nat.add_mul]
    omega
  · rw [hp, Nat.add_mul, Nat.add_mul]
    omega

/-- The sample that ends a frame. -/
theorem Receiver.Hearing.sample_last (h : r.Hearing edge byte time)
    (htime : edge + j * step = time) (hp : r.bitPeriod = period) (hstep : 0 < step)
    (hlong : 6 * step ≤ period) (hj : framePace step period ≤ j + 2) (level : Bool) :
    r.tick (time + 2 * step) level =
      ({ begin { r with phase := .idle } (time + 2 * step) level with previous := some level },
        some byte) := by
  have hover : frameBits * period ≤ framePace step period * step := framePace_mul hstep
  have hle : framePace step period * step ≤ (j + 2) * step := Nat.mul_le_mul_right _ hj
  rw [Nat.add_mul] at hle
  refine h.tick_last (by omega) ?_
  rw [hp]
  omega

/-! ### Frames at an even pace -/

/-- A receiver whose last sample was taken after `i` ticks of the transmitter, at its own time
`time`. -/
inductive Following (script : List UInt8) (step period late i : Nat) (r : Receiver) (time : Nat)
    (received : List UInt8) : Prop where
  | waiting (early : i < frameStart step period 0 + late)
      (parity : i % 2 = (frameStart step period 0 + late) % 2) (receiver : r.phase = .idle)
      (bytes : received = [])
  | hearing (k j edge : Nat) (byte : UInt8) (place : i = frameStart step period k + (late + j))
      (even : j % 2 = 0) (inside : j < framePace step period) (atByte : script[k]? = some byte)
      (receiver : r.Hearing edge byte time) (elapsed : edge + j * step = time)
      (bytes : received = script.take k)
  | done (passed : frameStart step period script.length + late ≤ i) (receiver : r.phase = .idle)
      (bytes : received = script)

/-- The sample that may find frame `k`, after a high one. -/
theorem following_begin (hline : ScriptLine script step period line) (hp : r.bitPeriod = period)
    (hstep : 0 < step) (hlong : 6 * step ≤ period) (hlate : late ≤ 1) (hr : r.phase = .idle)
    (hprev : r.previous = some true) (hk : k ≤ script.length)
    (hi : i = frameStart step period k + late) (time : Nat) :
    Following script step period late i
      { r.begin time (line i) with previous := some (line i) } time (script.take k) := by
  have hpace := le_framePace hstep hlong
  cases hbyte : script[k]? with
  | none =>
    have hlen : script.length ≤ k := List.getElem?_eq_none_iff.mp hbyte
    obtain rfl : k = script.length := Nat.le_antisymm hk hlen
    rw [hline.late i (by omega), Receiver.begin_of_high]
    exact .done (by omega) hr List.take_length
  | some byte =>
    have hlow : line i = false := by
      rw [hi, hline.frame k late byte hbyte (by omega),
        place_first hstep hlong (Nat.le_trans hlate (by decide))]
      rfl
    rw [hlow]
    refine .hearing k 0 time byte (by omega) rfl (by omega) hbyte ?_ (by omega) rfl
    exact (Receiver.hearing_begin hr hprev (by omega) byte time).keep

/-- One sample.  The sample that ends a frame is the one that may find the next. -/
theorem Following.sample (h : Following script step period late i r time received)
    (hline : ScriptLine script step period line) (hprev : r.previous = some (line i))
    (hp : r.bitPeriod = period) (hstep : 0 < step) (hlong : 6 * step ≤ period) (hlate : late ≤ 1)
    (heven : framePace step period % 2 = 0) :
    Following script step period late (i + 2) (r.tick (time + 2 * step) (line (i + 2))).1
      (time + 2 * step) (received ++ (r.tick (time + 2 * step) (line (i + 2))).2.toList) := by
  have hpace := le_framePace hstep hlong
  cases h with
  | waiting early parity hr hbytes =>
    have hhigh : line i = true := hline.early i (by omega)
    rw [hhigh] at hprev
    rw [Receiver.tick_idle hr, hbytes]
    by_cases hfirst : i + 2 < frameStart step period 0 + late
    · rw [hline.early (i + 2) (by omega), Receiver.begin_of_high]
      exact .waiting hfirst (by omega) hr rfl
    · exact following_begin hline hp hstep hlong hlate hr hprev (Nat.zero_le _) (by omega) _
  | hearing k j edge byte place even inside hbyte hr htime hbytes =>
    have hlen : k < script.length := (List.getElem?_eq_some_iff.mp hbyte).1
    by_cases hlast : j + 2 < framePace step period
    · have hshown : line (i + 2) = slotLevel byte ((late + (j + 2)) * step / period) := by
        rw [← hline.frame k (late + (j + 2)) byte hbyte (by omega)]
        congr 1
        omega
      obtain ⟨hhearing, hnone⟩ := hr.sample htime hp hstep hlong hlate (by omega)
      rw [hshown, hnone, Option.toList_none, List.append_nil]
      refine .hearing k (j + 2) edge byte (by omega) (by omega) hlast hbyte hhearing ?_ hbytes
      rw [Nat.add_mul]
      omega
    · -- The frame is over, on the sample that may find the next one.
      have hj : j + 2 = framePace step period := by omega
      have hhigh : line i = true := by
        rw [place, hline.frame k (late + j) byte hbyte (by omega),
          place_last hstep hlong (by omega) (by omega)]
        rfl
      rw [hhigh] at hprev
      rw [hr.sample_last htime hp hstep hlong (by omega)]
      have hnext := following_begin (r := { r with phase := .idle }) (k := k + 1) (i := i + 2) hline
        hp hstep hlong hlate rfl hprev hlen (by rw [frameStart_succ]; omega) (time + 2 * step)
      rw [List.take_add_one, hbyte] at hnext
      rw [hbytes]
      exact hnext
  | done passed hr hbytes =>
    rw [Receiver.tick_idle hr, hline.late (i + 2) (by omega), Receiver.begin_of_high]
    exact .done (by omega) hr (by simpa using hbytes)

theorem Following.received_prefix (h : Following script step period late i r time received) :
    received <+: script := by
  cases h with
  | waiting _ _ _ hbytes =>
    rw [hbytes]
    exact List.nil_prefix
  | hearing _ _ _ _ _ _ _ _ _ _ hbytes =>
    rw [hbytes]
    exact List.take_prefix _ _
  | done _ _ hbytes =>
    subst hbytes
    exact List.prefix_rfl

/-- Of the frames that are over two ticks later, at most the last one is still to be received. -/
theorem Following.le_received (h : Following script step period late i r time received)
    (hstep : 0 < step) (hlong : 6 * step ≤ period) (hlate : late ≤ 1)
    (hm : k ≤ script.length) (hover : frameStart step period k ≤ i + 2) :
    k ≤ received.length + 1 := by
  have hpace := le_framePace hstep hlong
  refine Nat.le_of_not_lt fun hlt => ?_
  have hlater : frameStart step period (received.length + 2) ≤ frameStart step period k :=
    frameStart_mono hlt
  rw [frameStart_succ] at hlater
  cases h with
  | waiting early _ _ hbytes =>
    rw [hbytes, List.length_nil, frameStart_succ] at hlater
    omega
  | hearing k' j _ _ place _ inside hbyte _ _ hbytes =>
    have hlen : k' < script.length := (List.getElem?_eq_some_iff.mp hbyte).1
    rw [hbytes, List.length_take, Nat.min_eq_left (by omega), frameStart_succ] at hlater
    omega
  | done _ _ hbytes =>
    rw [hbytes] at hlt
    omega

/-! ### Frames at an odd pace -/

theorem slotLevel_zero_of_lt (h : k < 9) : slotLevel 0 k = false := by
  cases k with
  | zero => rfl
  | succ k =>
    simp only [slotLevel, dif_pos (by omega : k < 8)]
    exact dataBit_zero _

/-- A receiver that sees `count` frames without a high data bit, as in `Following`.  It is in frame
`k`, found `late` ticks after its start, or has lost the start edge of frame `k` and rests until the
next one. -/
inductive Skipping (count step period i : Nat) (r : Receiver) (time : Nat) (received : Nat) :
    Prop where
  | waiting (late : Nat) (short : late ≤ 1) (early : i < frameStart step period 0 + late)
      (parity : i % 2 = (frameStart step period 0 + late) % 2) (receiver : r.phase = .idle)
      (few : received = 0)
  | hearing (late k j edge : Nat) (short : late ≤ 1) (turn : late = 1 ∨ k = 0)
      (place : i = frameStart step period k + (late + j)) (even : j % 2 = 0)
      (inside : j ≤ framePace step period) (exists_ : k < count)
      (receiver : r.Hearing edge 0 time) (elapsed : edge + j * step = time)
      (few : 2 * received ≤ k + late)
  | skipping (k j : Nat) (place : i = frameStart step period k + j) (even : j % 2 = 0)
      (past : 2 ≤ j) (inside : j < framePace step period) (exists_ : k < count)
      (receiver : r.phase = .idle) (few : 2 * received ≤ k + 2)
  | finished (passed : frameStart step period count ≤ i)

theorem line_zeros {count d : Nat} (hline : ScriptLine (List.replicate count 0) step period line)
    (hk : k < count) (hd : d < framePace step period) :
    line (frameStart step period k + d) = slotLevel 0 (d * step / period) := by
  refine hline.frame k d 0 ?_ hd
  rw [List.getElem?_replicate, if_pos hk]

/-- A sample that finds frame `k`, after a high one. -/
theorem skipping_begin {count heard : Nat}
    (hline : ScriptLine (List.replicate count 0) step period line) (hp : r.bitPeriod = period)
    (hstep : 0 < step) (hlong : 6 * step ≤ period) (hlate : late ≤ 1) (turn : late = 1 ∨ k = 0)
    (hr : r.phase = .idle) (hprev : r.previous = some true) (hk : k < count)
    (hi : i = frameStart step period k + late) (few : 2 * heard ≤ k + late) (time : Nat) :
    Skipping count step period i { r.begin time (line i) with previous := some (line i) } time
      heard := by
  have hpace := le_framePace hstep hlong
  have hlow : line i = false := by
    rw [hi, line_zeros hline hk (by omega),
      place_first hstep hlong (Nat.le_trans hlate (by decide))]
    rfl
  rw [hlow]
  refine .hearing late k 0 time hlate turn (by omega) rfl (by omega) hk ?_ (by omega) few
  exact (Receiver.hearing_begin hr hprev (by omega) 0 time).keep

/-- A frame goes on for the receiver as long as it is not over.  Its last sample may already see the
next frame. -/
theorem hearing_zeros {count : Nat}
    (hline : ScriptLine (List.replicate count 0) step period line) (hr : r.Hearing edge 0 time)
    (htime : edge + j * step = time) (hp : r.bitPeriod = period) (hstep : 0 < step)
    (hlong : 6 * step ≤ period) (short : late ≤ 1) (hk : k < count)
    (place : i = frameStart step period k + (late + j)) (hlast : j + 2 < framePace step period) :
    (r.tick (time + 2 * step) (line (i + 2))).1.Hearing edge 0 (time + 2 * step) ∧
      (r.tick (time + 2 * step) (line (i + 2))).2 = none := by
  by_cases hsame : late + (j + 2) < framePace step period
  · have hshown : line (i + 2) = slotLevel 0 ((late + (j + 2)) * step / period) := by
      rw [← line_zeros hline hk hsame]
      congr 1
      omega
    rw [hshown]
    exact hr.sample htime hp hstep hlong short hsame
  · have hover : frameBits * period ≤ framePace step period * step := framePace_mul hstep
    have hle : framePace step period * step ≤ (j + 3) * step :=
      Nat.mul_le_mul_right _ (by omega)
    have hinside := (lt_framePace_iff hstep).mp hlast
    rw [Nat.add_mul] at hle hinside
    simp only [frameBits] at hover hinside
    refine hr.tick_stop (by omega) (by omega) ?_ ?_ _
    · rw [hp]
      simp only [frameBits]
      omega
    · rw [hp, sampleDue_of_lt (by decide)]
      omega

/-- In a frame without a high data bit the line rises once and does not fall. -/
theorem begin_zeros {count : Nat} (hline : ScriptLine (List.replicate count 0) step period line)
    (hprev : r.previous = some (line i)) (hstep : 0 < step) (hk : k < count)
    (place : i = frameStart step period k + j) (hlast : j + 2 < framePace step period) :
    r.begin time (line (i + 2)) = r := by
  cases hlevel : line i with
  | false => exact Receiver.begin_of_previous (by simp [hprev, hlevel])
  | true =>
    have hrisen : 9 ≤ j * step / period := by
      refine Nat.le_of_not_lt fun hlt => ?_
      rw [place, line_zeros hline hk (by omega), slotLevel_zero_of_lt hlt] at hlevel
      cases hlevel
    have hlater : j * step / period ≤ (j + 2) * step / period :=
      Nat.div_le_div_right (Nat.mul_le_mul_right _ (by omega))
    have hten := place_lt ((lt_framePace_iff hstep).mp hlast)
    simp only [frameBits] at hten
    have hnine : (j + 2) * step / period = 9 := by omega
    have hhigh : line (i + 2) = true := by
      rw [place, Nat.add_assoc, line_zeros hline hk hlast, hnine]
      rfl
    rw [hhigh, Receiver.begin_of_high]

theorem Skipping.sample {count heard : Nat} (h : Skipping count step period i r time heard)
    (hline : ScriptLine (List.replicate count 0) step period line)
    (hprev : r.previous = some (line i)) (hp : r.bitPeriod = period) (hstep : 0 < step)
    (hlong : 6 * step ≤ period) (hodd : framePace step period % 2 = 1) :
    Skipping count step period (i + 2) (r.tick (time + 2 * step) (line (i + 2))).1
      (time + 2 * step)
      (heard + (r.tick (time + 2 * step) (line (i + 2))).2.toList.length) := by
  have hpace := le_framePace hstep hlong
  by_cases hover : frameStart step period count ≤ i + 2
  · exact .finished hover
  have hstarted : ∀ m, frameStart step period m ≤ i + 2 → m < count := fun m hm =>
    Nat.lt_of_not_le fun hle => hover (Nat.le_trans (frameStart_mono hle) hm)
  cases h with
  | waiting late short early parity hr few =>
    have hhigh : line i = true := hline.early i (by omega)
    rw [hhigh] at hprev
    rw [Receiver.tick_idle hr]
    by_cases hfirst : i + 2 < frameStart step period 0 + late
    · rw [hline.early (i + 2) (by omega), Receiver.begin_of_high]
      exact .waiting late short hfirst (by omega) hr few
    · exact skipping_begin hline hp hstep hlong short (.inr rfl) hr hprev (hstarted 0 (by omega))
        (by omega) (by simp [few]) _
  | hearing late k j edge short turn place even inside hk hr htime few =>
    by_cases hlast : j + 2 < framePace step period
    · obtain ⟨hhearing, hnone⟩ :=
        hearing_zeros hline hr htime hp hstep hlong short hk place hlast
      rw [hnone]
      refine .hearing late k (j + 2) edge short turn (by omega) (by omega) (by omega) hk hhearing
        ?_ few
      rw [Nat.add_mul]
      omega
    · -- The frame is over.
      have hj : j + 1 = framePace step period := by omega
      rw [hr.sample_last htime hp hstep hlong (by omega)]
      have hnext : frameStart step period (k + 1) + late + 1 = i + 2 := by
        rw [frameStart_succ]
        omega
      have hk1 : k + 1 < count := hstarted (k + 1) (by omega)
      rcases Nat.le_one_iff_eq_zero_or_eq_one.mp short with rfl | rfl
      · -- Found in time, the first frame ends on the sample that finds the second.
        have hk0 : k = 0 := turn.resolve_left (by decide)
        have hhigh : line i = true := by
          rw [place, line_zeros hline hk (by omega), place_last hstep hlong (by omega) (by omega)]
          rfl
        rw [hhigh] at hprev
        exact skipping_begin (r := { r with phase := .idle }) hline hp hstep hlong (Nat.le_refl 1)
          (.inl rfl) rfl hprev hk1 (by omega) (by simp; omega) _
      · -- Found late, it ends after the next start edge, which is lost.
        have hlow : line i = false := by
          have hi : i = frameStart step period (k + 1) + 0 := by omega
          rw [hi, line_zeros hline hk1 (by omega), place_first hstep hlong (by decide)]
          rfl
        rw [hlow] at hprev
        rw [Receiver.begin_of_previous (by simp [hprev])]
        exact .skipping (k + 1) 2 (by omega) rfl (Nat.le_refl 2) (by omega) hk1 rfl (by simp; omega)
  | skipping k j place even past inside hk hr few =>
    rw [Receiver.tick_idle hr]
    by_cases hlast : j + 2 < framePace step period
    · rw [begin_zeros hline hprev hstep hk place hlast]
      exact .skipping k (j + 2) (by omega) (by omega) (by omega) hlast hk hr few
    · have hj : j + 1 = framePace step period := by omega
      have hhigh : line i = true := by
        rw [place, line_zeros hline hk inside, place_last hstep hlong inside (by omega)]
        rfl
      rw [hhigh] at hprev
      have hnext : frameStart step period (k + 1) + 1 = i + 2 := by
        rw [frameStart_succ]
        omega
      exact skipping_begin hline hp hstep hlong (Nat.le_refl 1) (.inl rfl) hr hprev
        (hstarted (k + 1) (by omega)) hnext.symm (by simp; omega) _
  | finished hover' => exact absurd (Nat.le_trans hover' (Nat.le_add_right _ _)) hover

/-- Up to the end of the last frame about half of the frames have been received. -/
theorem Skipping.received_le {count heard : Nat} (h : Skipping count step period i r time heard)
    (hi : i < frameStart step period count) : 2 * heard ≤ count + 1 := by
  cases h with
  | waiting _ _ _ _ _ few => omega
  | hearing late k _ _ short _ _ _ _ hk _ _ few => omega
  | skipping k _ _ _ _ _ hk _ few => omega
  | finished hover => omega

end PinBench.Serial
