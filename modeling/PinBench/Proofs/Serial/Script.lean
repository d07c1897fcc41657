import PinBench.Proofs.Serial.Sending

/-! A transmitter that sends a script, with a tick every `step`.  The first frame starts one bit
after the first tick, and from there one frame starts every `framePace` ticks, back to back: a frame
ends on the first tick that is ten bits after its start or later.  So the level of the line after
`n` ticks is a function of `n`. -/

namespace PinBench.Serial

/-- How many ticks it takes until `duration` has passed. -/
def ticksFor (step duration : Nat) : Nat := (duration + (step - 1)) / step

/-- The number of ticks from the start of one frame to the start of the next. -/
def framePace (step period : Nat) : Nat := ticksFor step (frameBits * period)

/-- The number of ticks after which frame `k` has just started. -/
def frameStart (step period k : Nat) : Nat := ticksFor step period + 1 + k * framePace step period

variable {step period n k m d : Nat}

theorem lt_ticksFor_iff {duration : Nat} (hstep : 0 < step) :
    n < ticksFor step duration ↔ n * step < duration := by
  rw [ticksFor, Nat.lt_iff_add_one_le, Nat.le_div_iff_mul_le hstep, Nat.succ_mul]
  omega

theorem ticksFor_mul_le (step duration : Nat) :
    ticksFor step duration * step ≤ duration + step := by
  have := Nat.div_mul_le_self (duration + (step - 1)) step
  rw [ticksFor]
  omega

theorem lt_framePace_iff (hstep : 0 < step) :
    n < framePace step period ↔ n * step < frameBits * period :=
  lt_ticksFor_iff hstep

theorem framePace_mul (hstep : 0 < step) :
    frameBits * period ≤ framePace step period * step :=
  Nat.le_of_not_lt fun h => Nat.lt_irrefl _ ((lt_framePace_iff hstep).mpr h)

theorem framePace_pos (hstep : 0 < step) (hperiod : 0 < period) : 0 < framePace step period := by
  rw [lt_framePace_iff hstep, Nat.zero_mul]
  exact Nat.mul_pos (by decide) hperiod

theorem frameStart_succ (step period k : Nat) :
    frameStart step period (k + 1) = frameStart step period k + framePace step period := by
  simp only [frameStart, Nat.succ_mul]
  omega

theorem frameStart_mono (h : k ≤ m) : frameStart step period k ≤ frameStart step period m :=
  Nat.add_le_add_left (Nat.mul_le_mul_right _ h) _

/-- A moment lies in one frame only. -/
theorem frame_unique {k' d' : Nat} (hd : d < framePace step period)
    (hd' : d' < framePace step period)
    (h : frameStart step period k + d = frameStart step period k' + d') : k = k' ∧ d = d' := by
  rcases Nat.lt_trichotomy k k' with hlt | rfl | hlt
  · have hnext : frameStart step period (k + 1) ≤ frameStart step period k' := frameStart_mono hlt
    rw [frameStart_succ] at hnext
    omega
  · exact ⟨rfl, by omega⟩
  · have hnext : frameStart step period (k' + 1) ≤ frameStart step period k := frameStart_mono hlt
    rw [frameStart_succ] at hnext
    omega

/-- The level of a line that a script is sent on, after each number of ticks. -/
structure ScriptLine (script : List UInt8) (step period : Nat) (line : Nat → Bool) : Prop where
  early : ∀ n, n < frameStart step period 0 → line n = true
  frame : ∀ k d byte, script[k]? = some byte → d < framePace step period →
    line (frameStart step period k + d) = slotLevel byte (d * step / period)
  late : ∀ n, frameStart step period script.length ≤ n → line n = true

variable {script : List UInt8} {t : Transmitter} {sent : Nat}

/-- A transmitter after `n` ticks, at times `0`, `step` and so on, and the number of bytes sent. -/
inductive Scripted (script : List UInt8) (step period n : Nat) (t : Transmitter) (sent : Nat) :
    Prop where
  | waiting (early : n < frameStart step period 0) (resting : t.Resting)
      (pending : t.pending = script) (readyAt : t.readyAt = if n = 0 then none else some period)
      (count : sent = 0)
  | frame (k d edge : Nat) (byte : UInt8) (place : n = frameStart step period k + d)
      (inside : d < framePace step period) (atByte : script[k]? = some byte)
      (sending : t.Sending edge byte (edge + d * step)) (time : edge + d * step + step = n * step)
      (pending : t.pending = script.drop (k + 1)) (count : sent = k)
  | done (late : frameStart step period script.length ≤ n) (resting : t.Resting)
      (pending : t.pending = []) (count : sent = script.length)

theorem scripted_start (script : List UInt8) (step : Nat) (baudRate : UInt32) :
    Scripted script step (bitPeriod baudRate) 0 ((Transmitter.idle baudRate).enqueue script) 0 := by
  refine .waiting ?_ ((Transmitter.resting_idle baudRate).enqueue script) rfl rfl rfl
  simp only [frameStart]
  omega

theorem scripted_begin (ht : t.Resting) (hp : t.bitPeriod = period) (hpos : 0 < period)
    (hstep : 0 < step) (hready : t.readyAt.getD (n * step + t.bitPeriod) ≤ n * step)
    (hpend : t.pending = script.drop k) (hk : k ≤ script.length)
    (hn : n + 1 = frameStart step period k) :
    Scripted script step period (n + 1) (t.begin (n * step)) k := by
  rw [← hp] at hpos
  cases hbyte : script[k]? with
  | none =>
    have hlen : script.length ≤ k := List.getElem?_eq_none_iff.mp hbyte
    have hkl : k = script.length := by omega
    subst hkl
    rw [List.drop_length] at hpend
    obtain ⟨hresting, hsame, -⟩ := ht.begin_rests (.inl hpend)
    exact .done (by omega) hresting (hsame.trans hpend) rfl
  | some byte =>
    obtain ⟨hlt, hget⟩ := List.getElem?_eq_some_iff.mp hbyte
    rw [List.drop_eq_getElem_cons hlt, hget] at hpend
    obtain ⟨hsending, hrest⟩ := Transmitter.begin_starts hpos hpend hready
    refine .frame k 0 (n * step) byte hn (framePace_pos hstep (by omega)) hbyte ?_ ?_ hrest rfl
    · rw [Nat.zero_mul]
      exact hsending
    · rw [Nat.zero_mul, Nat.succ_mul]
      rfl

theorem Scripted.tick (h : Scripted script step period n t sent) (hp : t.bitPeriod = period)
    (hstep : 0 < step) (hlong : step ≤ period) :
    Scripted script step period (n + 1) (t.tick (n * step)).1
      (if (t.tick (n * step)).2.isSome then sent + 1 else sent) := by
  have hpos : 0 < period := Nat.lt_of_lt_of_le hstep hlong
  cases h with
  | waiting early ht hpend hready hcount =>
    rw [ht.tick]
    by_cases hfirst : n + 1 = frameStart step period 0
    · have hn : ¬n < ticksFor step period := by
        simp only [frameStart] at hfirst
        omega
      rw [lt_ticksFor_iff hstep] at hn
      have hn0 : n ≠ 0 := by
        rintro rfl
        omega
      rw [if_neg hn0] at hready
      rw [hcount]
      refine scripted_begin ht hp hpos hstep ?_ hpend (Nat.zero_le _) hfirst
      rw [hready]
      exact Nat.le_of_not_lt hn
    · have hn : n < ticksFor step period := by
        simp only [frameStart] at early hfirst
        omega
      rw [lt_ticksFor_iff hstep] at hn
      have hwait : t.readyAt.getD (n * step + t.bitPeriod) = period := by
        rw [hready]
        split
        · rename_i h0
          rw [h0, hp]
          simp
        · rfl
      obtain ⟨hresting, hsame, hat⟩ := ht.begin_rests (.inr (by rw [hwait]; exact hn))
      refine .waiting (by omega) hresting (hsame.trans hpend) ?_ hcount
      rw [hat, hwait, if_neg (Nat.succ_ne_zero n)]
  | frame k d edge byte place inside hbyte ht htime hpend hcount =>
    have hedge : edge + (d + 1) * step = n * step := by
      rw [Nat.succ_mul]
      omega
    by_cases hlast : d + 1 < framePace step period
    · have hun : n * step - edge < frameBits * t.bitPeriod := by
        have := (lt_framePace_iff hstep).mp hlast
        rw [hp]
        omega
      obtain ⟨hsending, hnone, hsame, -⟩ := ht.tick (by omega) (by omega) hun
      rw [hnone]
      refine .frame k (d + 1) edge byte (by omega) hlast hbyte ?_ ?_ (hsame.trans hpend) hcount
      · rw [hedge]
        exact hsending
      · rw [hedge, Nat.succ_mul]
    · have hdone : edge + frameBits * t.bitPeriod ≤ n * step := by
        have hpace : frameBits * period ≤ framePace step period * step := framePace_mul hstep
        have hd : d + 1 = framePace step period := by omega
        rw [← hd] at hpace
        rw [hp]
        omega
      have hgap : n * step ≤ edge + d * step + t.bitPeriod := by omega
      obtain ⟨-, hresting⟩ := ht.resting_last hgap hdone
      rw [ht.tick_last hgap hdone, hcount]
      show Scripted script step period (n + 1) (Transmitter.begin _ (n * step)) (k + 1)
      have hk : k < script.length := (List.getElem?_eq_some_iff.mp hbyte).1
      refine scripted_begin hresting hp hpos hstep (Nat.le_refl _) hpend hk ?_
      rw [frameStart_succ]
      omega
  | done late ht hpend hcount =>
    rw [ht.tick]
    obtain ⟨hresting, hsame, -⟩ := ht.begin_rests (.inl hpend)
    exact .done (by omega) hresting (hsame.trans hpend) hcount

/-- Frame `k` of the script is over before frame `k + 1` starts, and so before any later one. -/
theorem frame_lt_of_lt {k' : Nat} (hd : d < framePace step period) (h : k < k') :
    frameStart step period k + d < frameStart step period k' := by
  have hnext : frameStart step period (k + 1) ≤ frameStart step period k' := frameStart_mono h
  rw [frameStart_succ] at hnext
  omega

theorem Scripted.level_early (h : Scripted script step period n t sent)
    (hn : n < frameStart step period 0) : t.level = true := by
  cases h with
  | waiting _ ht => exact ht.level
  | frame k d edge byte place =>
    have : frameStart step period 0 ≤ frameStart step period k := frameStart_mono (Nat.zero_le k)
    omega
  | done _ ht => exact ht.level

theorem Scripted.level_frame {byte : UInt8}
    (h : Scripted script step period (frameStart step period k + d) t sent)
    (hp : t.bitPeriod = period) (hd : d < framePace step period) (hbyte : script[k]? = some byte) :
    t.level = slotLevel byte (d * step / period) := by
  have hk : k < script.length := (List.getElem?_eq_some_iff.mp hbyte).1
  cases h with
  | waiting early =>
    have : frameStart step period 0 ≤ frameStart step period k := frameStart_mono (Nat.zero_le k)
    omega
  | frame k' d' edge byte' place inside hbyte' ht =>
    obtain ⟨rfl, rfl⟩ := frame_unique hd inside place
    rw [hbyte, Option.some.injEq] at hbyte'
    rw [ht.level, Nat.add_sub_cancel_left, hp, hbyte']
  | done late =>
    have := frame_lt_of_lt hd hk
    omega

theorem Scripted.level_late (h : Scripted script step period n t sent)
    (hn : frameStart step period script.length ≤ n) : t.level = true := by
  cases h with
  | waiting _ ht => exact ht.level
  | frame k d edge byte place inside hbyte =>
    have := frame_lt_of_lt inside (List.getElem?_eq_some_iff.mp hbyte).1
    omega
  | done _ ht => exact ht.level

/-- No more frames are over than have had the time. -/
theorem Scripted.sent_le (h : Scripted script step period n t sent) :
    sent ≤ script.length ∧ (sent = 0 ∨ frameStart step period sent ≤ n) := by
  cases h with
  | waiting _ _ _ _ count => exact ⟨by omega, .inl count⟩
  | frame k d _ _ place _ hbyte _ _ _ count =>
    have := (List.getElem?_eq_some_iff.mp hbyte).1
    exact ⟨by omega, .inr (by rw [count]; omega)⟩
  | done late _ _ count => exact ⟨by omega, .inr (by rw [count]; exact late)⟩

/-- A frame is over as soon as it has had its time. -/
theorem Scripted.sent_eq (h : Scripted script step period (frameStart step period k) t sent)
    (hk : k ≤ script.length) (hpace : 0 < framePace step period) : sent = k := by
  cases h with
  | waiting early =>
    have : frameStart step period 0 ≤ frameStart step period k := frameStart_mono (Nat.zero_le k)
    omega
  | frame k' d' _ _ place inside _ _ _ _ count =>
    obtain ⟨rfl, -⟩ := frame_unique hpace inside place
    exact count
  | done late _ _ count =>
    rcases Nat.lt_or_eq_of_le hk with hlt | rfl
    · have := frame_lt_of_lt hpace hlt
      omega
    · exact count

end PinBench.Serial
