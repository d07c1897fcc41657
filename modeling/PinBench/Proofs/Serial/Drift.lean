import Mathlib.Tactic.IntervalCases
import PinBench.Proofs.Serial.Decoding
import PinBench.Proofs.Serial.Waveform

/-! A line whose ends have bits of different lengths.  `Margins` says how far the lengths may differ
and how sparse the ticks may be.  Within these margins all nine samples of a frame fall into its
places, and after the last of them the line stays high until the receiver is done
(`mismatched_ends_deliver`). -/

namespace PinBench.Serial

/-- The line of a transmitter as its ticks at some times drive it. -/
def Transmitter.recording (t : Transmitter) : List Nat → List Sample
  | [] => []
  | now :: times => ⟨now, (t.tick now).1.level⟩ :: (t.tick now).1.recording times

/-! ### Margins -/

/-- Bits of these lengths at the two ends, and ticks that are at most `gap` apart: the last sample
is not early, and neither the first nor the last one is late. -/
structure Margins (sending receiving gap : Nat) : Prop where
  half : 1 ≤ receiving / 2
  early : 8 * sending ≤ receiving / 2 + 8 * receiving
  first : receiving / 2 + gap ≤ sending
  last : receiving / 2 + 8 * receiving + gap ≤ 9 * sending

namespace Margins

variable {sending receiving gap : Nat}

/-- What holds of the first and the last sample holds of those between them: a sample is due in its
place, and still in it one gap later. -/
theorem place (h : Margins sending receiving gap) {m : Nat} (hm : m < 9) :
    m * sending ≤ receiving / 2 + m * receiving ∧
      receiving / 2 + m * receiving + gap ≤ (m + 1) * sending := by
  obtain ⟨-, hearly, hfirst, hlast⟩ := h
  interval_cases m <;> omega

theorem gap_le_sending (h : Margins sending receiving gap) : gap ≤ sending := by
  have := h.first
  omega

theorem gap_le_receiving (h : Margins sending receiving gap) : gap ≤ receiving := by
  obtain ⟨-, hearly, hfirst, -⟩ := h
  omega

/-- When the receiver is done, the transmitter is in the stop bit or done as well. -/
theorem nine_le (h : Margins sending receiving gap) : 9 * sending ≤ frameBits * receiving := by
  have hearly := h.early
  simp only [frameBits]
  omega

theorem sending_pos (h : Margins sending receiving gap) : 0 < sending := by
  obtain ⟨hhalf, -, hfirst, -⟩ := h
  omega

end Margins

/-! ### The first of some times -/

section First

variable {times front back : List Nat} {due now : Nat}

theorem firstFrom_cons_of_le (h : due ≤ now) (times : List Nat) :
    firstFrom (now :: times) due = some 0 := by
  simp [firstFrom, List.findIdx?_cons, h]

theorem firstFrom_append_of_lt (h : ∀ time ∈ front, time < due) (back : List Nat) :
    firstFrom (front ++ back) due = (firstFrom back due).map (front.length + ·) := by
  have hnone : front.findIdx? (fun time => decide (due ≤ time)) = none :=
    List.findIdx?_eq_none_iff.mpr fun time htime => decide_eq_false (Nat.not_le.mpr (h time htime))
  rw [firstFrom, List.findIdx?_append, hnone, Option.none_or]
  exact congrArg (Option.map · (firstFrom back due)) (funext fun k => Nat.add_comm k front.length)

theorem firstFrom_take {c n : Nat} (h : firstFrom times due = some c) (hn : c < n) :
    firstFrom (times.take n) due = some c := by
  obtain ⟨hc, hdue, hearly⟩ := List.findIdx?_eq_some_iff_getElem.mp h
  refine List.findIdx?_eq_some_iff_getElem.mpr ⟨by rw [List.length_take]; omega, ?_, fun k hk => ?_⟩
  · rwa [List.getElem_take]
  · rw [List.getElem_take]
    exact hearly k hk

/-- The times before the first one that is late enough, and what follows it. -/
theorem early_or_split (times : List Nat) (due : Nat) :
    (∀ time ∈ times, time < due) ∨ ∃ front time back, times = front ++ time :: back ∧
      (∀ early ∈ front, early < due) ∧ due ≤ time := by
  induction times with
  | nil => exact .inl (by simp)
  | cons now times ih =>
    by_cases hnow : due ≤ now
    · exact .inr ⟨[], now, times, rfl, by simp, hnow⟩
    · rcases ih with hearly | ⟨front, time, back, rfl, hearly, hdue⟩
      · exact .inl (List.forall_mem_cons.mpr ⟨Nat.lt_of_not_le hnow, hearly⟩)
      · exact .inr ⟨now :: front, time, back, rfl,
          List.forall_mem_cons.mpr ⟨Nat.lt_of_not_le hnow, hearly⟩, hdue⟩

end First

/-! ### One frame on the line -/

theorem slotLevel_of_nine_le (byte : UInt8) {k : Nat} (hk : 9 ≤ k) : slotLevel byte k = true := by
  obtain ⟨k, rfl⟩ : ∃ m, k = m + 1 := ⟨k - 1, by omega⟩
  rw [slotLevel, dif_neg (by omega)]

section Line

variable {t : Transmitter} {r : Receiver} {byte : UInt8} {edge last now gap : Nat}

/-- At time `last` the transmitter has started its last frame, at time `edge`. -/
inductive Carries (t : Transmitter) (edge : Nat) (byte : UInt8) (last : Nat) : Prop
  | sending (sends : t.Sending edge byte last) (pending : t.pending = [])
  | done (rests : t.Resting) (pending : t.pending = [])
      (finished : edge + frameBits * t.bitPeriod ≤ last)

/-- The line shows the frame, and is high after it. -/
theorem Carries.level (h : Carries t edge byte last) (hpos : 0 < t.bitPeriod) :
    t.level = slotLevel byte ((last - edge) / t.bitPeriod) := by
  cases h with
  | sending sends pending => exact sends.level
  | done rests pending finished =>
    have hplace : frameBits ≤ (last - edge) / t.bitPeriod :=
      (Nat.le_div_iff_mul_le hpos).mpr (Nat.le_sub_of_add_le' finished)
    simp only [frameBits] at hplace
    rw [rests.level, slotLevel_of_nine_le byte (by omega)]

theorem Carries.tick (h : Carries t edge byte last) (hle : last ≤ now)
    (hgap : now ≤ last + t.bitPeriod) : Carries (t.tick now).1 edge byte now := by
  have hperiod := t.tick_bitPeriod now
  cases h with
  | sending sends pending =>
    by_cases hdone : edge + frameBits * t.bitPeriod ≤ now
    · obtain ⟨-, hresting⟩ := sends.resting_last hgap hdone
      rw [sends.tick_last hgap hdone] at hperiod ⊢
      obtain ⟨hrests, hnone, -⟩ := hresting.begin_rests (Or.inl (b := now < _) pending)
      exact .done hrests (hnone.trans pending) (by rw [hperiod]; exact hdone)
    · have hbegun := sends.begun
      obtain ⟨hsends, -, hnone, -⟩ := sends.tick hle hgap (by omega)
      exact .sending hsends (hnone.trans pending)
  | done rests pending finished =>
    rw [rests.tick now] at hperiod ⊢
    obtain ⟨hrests, hnone, -⟩ := rests.begin_rests (Or.inl (b := now < _) pending)
    exact .done hrests (hnone.trans pending) (by rw [hperiod]; omega)

theorem Carries.level_high (h : Carries t edge byte last) (hpos : 0 < t.bitPeriod)
    (hover : edge + 9 * t.bitPeriod ≤ last) : t.level = true := by
  have hplace : 9 ≤ (last - edge) / t.bitPeriod :=
    (Nat.le_div_iff_mul_le hpos).mpr (Nat.le_sub_of_add_le' hover)
  rw [h.level hpos, slotLevel_of_nine_le byte hplace]

/-- The receiver is in step with the line: whatever sample the next tick takes, it takes it in the
sample's own place. -/
theorem Carries.tick_hearing (h : Carries t edge byte last) (hhears : r.Hearing edge byte last)
    (hmargins : Margins t.bitPeriod r.bitPeriod gap) (hle : last ≤ now) (hgap : now ≤ last + gap)
    (hun : now - edge < frameBits * r.bitPeriod) :
    (r.tick now (t.tick now).1.level).1.Hearing edge byte now ∧
      (r.tick now (t.tick now).1.level).2 = none := by
  have hsending := hmargins.gap_le_sending
  have hreceiving := hmargins.gap_le_receiving
  have hperiod := t.tick_bitPeriod now
  have hlevel := (h.tick hle (by omega)).level (by rw [hperiod]; exact hmargins.sending_pos)
  refine hhears.tick_sample hle (by omega) hun fun m hm hbefore hdue => ?_
  obtain ⟨hstarted, hlasts⟩ := hmargins.place hm
  rw [sampleDue_of_lt hm] at hbefore hdue
  have hplace : (now - edge) / t.bitPeriod = m := place_eq (by omega) (by omega)
  rw [hlevel, hperiod, hplace]

/-- Once the frame is over for the receiver, it hears nothing more. -/
theorem Carries.quiet (h : Carries t edge byte last) (hidle : r.phase = .idle)
    (hpos : 0 < t.bitPeriod) (hover : edge + 9 * t.bitPeriod ≤ last) (hgap : gap ≤ t.bitPeriod)
    (times : List Nat) (hpaced : Paced gap (last :: times)) (i : Nat) :
    r.deliveries i (t.recording times) = [] ∧ (r.after (t.recording times)).phase = .idle := by
  induction times generalizing t r last i with
  | nil => exact ⟨rfl, hidle⟩
  | cons now times ih =>
    obtain ⟨⟨hle, hnext⟩, hrest⟩ := List.isChain_cons_cons.mp hpaced
    have hperiod := t.tick_bitPeriod now
    have hticked := h.tick hle (by omega : now ≤ last + t.bitPeriod)
    have hhigh := hticked.level_high (by rwa [hperiod]) (by rw [hperiod]; omega)
    have htick : r.tick now true = ({ r with previous := some true }, none) := by
      rw [Receiver.tick_idle hidle, Receiver.begin_of_high]
    obtain ⟨hnone, hstill⟩ := ih (r := (r.tick now true).1) hticked (by rw [htick]; exact hidle)
      (by rwa [hperiod]) (by rw [hperiod]; omega) (by rwa [hperiod]) hrest (i + 1)
    rw [Transmitter.recording, hhigh]
    refine ⟨?_, hstill⟩
    rw [Receiver.deliveries, hnone, htick]
    rfl

/-- From the start edge on, the frame is delivered with the first tick at which it is over for the
receiver, and nothing is delivered before or after that. -/
theorem Carries.delivers (h : Carries t edge byte last) (hhears : r.Hearing edge byte last)
    (hmargins : Margins t.bitPeriod r.bitPeriod gap) (times : List Nat)
    (hpaced : Paced gap (last :: times)) (i : Nat) :
    r.deliveries i (t.recording times) =
        ((firstFrom times (edge + frameBits * r.bitPeriod)).map fun c => (i + c, byte)).toList ∧
      (firstFrom times (edge + frameBits * r.bitPeriod) ≠ none →
        (r.after (t.recording times)).phase = .idle) := by
  induction times generalizing t r last i with
  | nil => exact ⟨rfl, fun hsome => absurd rfl hsome⟩
  | cons now times ih =>
    obtain ⟨⟨hle, hnext⟩, hrest⟩ := List.isChain_cons_cons.mp hpaced
    have hperiod := t.tick_bitPeriod now
    have hsending := hmargins.gap_le_sending
    have hreceiving := hmargins.gap_le_receiving
    have hpos := hmargins.sending_pos
    have hticked := h.tick hle (by omega : now ≤ last + t.bitPeriod)
    by_cases hdone : edge + frameBits * r.bitPeriod ≤ now
    · have hnine := hmargins.nine_le
      have hhigh := hticked.level_high (by rwa [hperiod]) (by rw [hperiod]; omega)
      have htick : r.tick now true = _ := hhears.tick_last (by omega) hdone
      rw [Receiver.begin_of_high] at htick
      obtain ⟨hnone, hidle⟩ := hticked.quiet (r := (r.tick now true).1) (by rw [htick])
        (by rwa [hperiod]) (by rw [hperiod]; omega) (by rwa [hperiod]) times hrest (i + 1)
      rw [firstFrom_cons_of_le hdone, Transmitter.recording, hhigh]
      refine ⟨?_, fun _ => hidle⟩
      rw [Receiver.deliveries, hnone, htick]
      rfl
    · have hbegun := hhears.begun
      obtain ⟨hhearing, hnone⟩ := h.tick_hearing hhears hmargins hle hnext (by omega)
      have hperiod' := r.tick_bitPeriod now (t.tick now).1.level
      obtain ⟨hrecord, hidle⟩ := ih hticked hhearing (by rwa [hperiod, hperiod']) hrest (i + 1)
      have hearly : ∀ time ∈ [now], time < edge + frameBits * r.bitPeriod := by simpa using hdone
      have hfirst := firstFrom_append_of_lt hearly times
      rw [hperiod'] at hrecord hidle
      rw [List.singleton_append] at hfirst
      rw [hfirst, Transmitter.recording, Receiver.deliveries, hnone, hrecord]
      refine ⟨?_, fun hsome => hidle fun hno => hsome (by rw [hno]; rfl)⟩
      cases firstFrom times (edge + frameBits * r.bitPeriod) with
      | none => rfl
      | some c => simp [Nat.add_assoc]

/-! ### Before the frame -/

/-- The transmitter is to start its only frame with the first tick at time `ready` or later, and the
receiver has seen the line high. -/
structure Waits (t : Transmitter) (r : Receiver) (byte : UInt8) (ready : Nat) : Prop where
  rests : t.Resting
  pending : t.pending = [byte]
  readyAt : t.readyAt = some ready
  idle : r.phase = .idle
  previous : r.previous = some true

variable {ready : Nat}

/-- A tick that is too early for the frame, be it the first one or not. -/
theorem waits_of_early (ht : t.Resting) (hpending : t.pending = [byte]) (hidle : r.phase = .idle)
    (hready : t.readyAt.getD (now + t.bitPeriod) = ready) (hearly : now < ready) :
    (t.tick now).1.level = true ∧ Waits (t.tick now).1 (r.tick now true).1 byte ready ∧
      (r.tick now true).2 = none := by
  subst hready
  obtain ⟨hrests, hstays, hreadyAt⟩ := ht.begin_rests (.inr hearly)
  rw [ht.tick now, Receiver.tick_idle hidle, Receiver.begin_of_high]
  exact ⟨hrests.level, ⟨hrests, hstays.trans hpending, hreadyAt, hidle, rfl⟩, rfl⟩

theorem Waits.start (h : Waits t r byte ready) (hdue : ready ≤ now) (hpos : 0 < t.bitPeriod)
    (hhalf : 1 ≤ r.bitPeriod / 2) :
    (t.tick now).1.level = false ∧ Carries (t.tick now).1 now byte now ∧
      (r.tick now false).1.Hearing now byte now ∧ (r.tick now false).2 = none := by
  have hready : t.readyAt.getD (now + t.bitPeriod) ≤ now := by rwa [h.readyAt]
  obtain ⟨hsends, hpending⟩ := Transmitter.begin_starts hpos h.pending hready
  have hhearing := Receiver.hearing_begin h.idle h.previous (by omega) byte now
  rw [h.rests.tick now, Receiver.tick_idle h.idle]
  refine ⟨?_, .sending hsends hpending, hhearing.keep, rfl⟩
  rw [hsends.level, Nat.sub_self, Nat.zero_div]
  rfl

/-- Ticks before the frame show the line high, and the receiver makes nothing of them. -/
theorem Waits.early (h : Waits t r byte ready) (front back : List Nat)
    (hearly : ∀ time ∈ front, time < ready) :
    ∃ t' r', Waits t' r' byte ready ∧ t'.bitPeriod = t.bitPeriod ∧ r'.bitPeriod = r.bitPeriod ∧
      t.recording (front ++ back) = front.map (⟨·, true⟩) ++ t'.recording back ∧
      ∀ line i, r.deliveries i (front.map (⟨·, true⟩) ++ line) =
          r'.deliveries (i + front.length) line ∧
        r.after (front.map (⟨·, true⟩) ++ line) = r'.after line := by
  induction front generalizing t r with
  | nil => exact ⟨t, r, h, rfl, rfl, rfl, fun line i => ⟨rfl, rfl⟩⟩
  | cons now front ih =>
    obtain ⟨hnow, hfront⟩ := List.forall_mem_cons.mp hearly
    obtain ⟨hhigh, hwaits, hnone⟩ := waits_of_early h.rests h.pending h.idle
      (by rw [h.readyAt, Option.getD_some]) hnow
    obtain ⟨t', r', hwaits', ht, hr, hrecording, hline⟩ := ih hwaits hfront
    refine ⟨t', r', hwaits', ht.trans (t.tick_bitPeriod now), hr.trans (r.tick_bitPeriod now true),
      ?_, fun line i => ⟨?_, (hline line 0).2⟩⟩
    · rw [List.cons_append, Transmitter.recording, hhigh, hrecording]
      rfl
    · rw [List.map_cons, List.cons_append, Receiver.deliveries, hnone, (hline line (i + 1)).1,
        List.length_cons, Nat.add_right_comm, Nat.add_assoc]
      rfl

end Line

/-! ### Whole runs -/

section Run

variable {sender receiver : UInt32} {byte : UInt8} {first edge gap : Nat} {front back : List Nat}

/-- The line of a new transmitter with just this byte to send. -/
def lineOf (sender : UInt32) (byte : UInt8) (times : List Nat) : List Sample :=
  ((Transmitter.idle sender).enqueue [byte]).recording times

theorem Transmitter.recording_take (t : Transmitter) (times : List Nat) (n : Nat) :
    (t.recording times).take n = t.recording (times.take n) := by
  induction times generalizing t n with
  | nil => simp [Transmitter.recording]
  | cons now times ih =>
    cases n with
    | zero => rfl
    | succ n => rw [Transmitter.recording, List.take_succ_cons, ih, List.take_succ_cons,
        Transmitter.recording]

theorem levelAt_of_high {k : Nat} (hk : k < front.length) (line : List Sample) :
    levelAt (front.map (⟨·, true⟩) ++ line) k = some true := by
  rw [levelAt, List.getElem?_append_left (by rwa [List.length_map]),
    List.getElem?_eq_getElem (by rwa [List.length_map]), List.getElem_map]
  rfl

theorem not_falls_of_high (front : List Nat) (start j : Nat) :
    ¬Falls (front.map (⟨·, true⟩)) start j := by
  rintro ⟨⟨-, -, -, hlow⟩, -⟩
  have hj := lt_length_of_levelAt hlow
  have hhigh := levelAt_of_high (by rwa [List.length_map] at hj) []
  rw [List.append_nil, hlow] at hhigh
  cases hhigh

theorem falls_iff_of_high (hfront : front ≠ []) (edge : Nat) (line : List Sample) (j : Nat) :
    Falls (front.map (⟨·, true⟩) ++ ⟨edge, false⟩ :: line) 0 j ↔ front.length = j := by
  have hpos := List.length_pos_of_ne_nil hfront
  have hlow : levelAt (front.map (⟨·, true⟩) ++ ⟨edge, false⟩ :: line) front.length = some false := by
    rw [levelAt, List.getElem?_append_right (by rw [List.length_map]), List.length_map, Nat.sub_self]
    rfl
  have hfalls : Falls (front.map (⟨·, true⟩) ++ ⟨edge, false⟩ :: line) 0 front.length := by
    refine ⟨⟨Nat.zero_le _, hpos, levelAt_of_high (by omega) _, hlow⟩, fun k hk => ?_⟩
    obtain ⟨-, -, -, hlow'⟩ := hk
    refine Nat.le_of_not_lt fun hlt => ?_
    rw [levelAt_of_high hlt] at hlow'
    cases hlow'
  exact ⟨fun h => hfalls.unique h, fun h => h ▸ hfalls⟩

/-- The ticks before the frame may start. -/
theorem lineOf_early (receiver : UInt32) (byte : UInt8) (hhead : front.head? = some first)
    (hearly : ∀ time ∈ front, time < first + bitPeriod sender) (back : List Nat) :
    ∃ t r, Waits t r byte (first + bitPeriod sender) ∧ t.bitPeriod = bitPeriod sender ∧
      r.bitPeriod = bitPeriod receiver ∧
      lineOf sender byte (front ++ back) = front.map (⟨·, true⟩) ++ t.recording back ∧
      ∀ line, (Receiver.idle receiver).deliveries 0 (front.map (⟨·, true⟩) ++ line) =
          r.deliveries front.length line ∧
        (Receiver.idle receiver).after (front.map (⟨·, true⟩) ++ line) = r.after line := by
  obtain ⟨front, rfl⟩ := List.head?_eq_some_iff.mp hhead
  obtain ⟨hfirst, hfront⟩ := List.forall_mem_cons.mp hearly
  obtain ⟨hhigh, hwaits, hnone⟩ := waits_of_early (r := .idle receiver)
    ((Transmitter.resting_idle sender).enqueue [byte]) rfl rfl rfl hfirst
  obtain ⟨t, r, hwaits', ht, hr, hrecording, hline⟩ := hwaits.early front back hfront
  refine ⟨t, r, hwaits', ht.trans (Transmitter.tick_bitPeriod _ first),
    hr.trans (Receiver.tick_bitPeriod _ first true), ?_, fun line => ⟨?_, (hline line 0).2⟩⟩
  · rw [lineOf, List.cons_append, Transmitter.recording, hhigh, hrecording]
    rfl
  · rw [List.map_cons, List.cons_append, Receiver.deliveries, hnone, (hline line (0 + 1)).1,
      List.length_cons, Nat.zero_add, Nat.add_comm 1]
    rfl

/-- A run that ends before the frame may start. -/
theorem lineOf_of_early (receiver : UInt32) (byte : UInt8) (hhead : front.head? = some first)
    (hearly : ∀ time ∈ front, time < first + bitPeriod sender) :
    lineOf sender byte front = front.map (⟨·, true⟩) ∧
      (Receiver.idle receiver).deliveries 0 (lineOf sender byte front) = [] := by
  obtain ⟨t, r, -, -, -, hlineOf, hline⟩ := lineOf_early receiver byte hhead hearly []
  rw [List.append_nil] at hlineOf
  rw [hlineOf]
  exact ⟨List.append_nil _, (hline _).1⟩

/-- A run in which the frame starts after `front`. -/
theorem lineOf_of_start (hmargins : Margins (bitPeriod sender) (bitPeriod receiver) gap)
    (byte : UInt8) (hhead : front.head? = some first)
    (hearly : ∀ time ∈ front, time < first + bitPeriod sender)
    (hdue : first + bitPeriod sender ≤ edge) (hpaced : Paced gap (edge :: back)) :
    (∃ line, lineOf sender byte (front ++ edge :: back) =
        front.map (⟨·, true⟩) ++ ⟨edge, false⟩ :: line) ∧
      (Receiver.idle receiver).deliveries 0 (lineOf sender byte (front ++ edge :: back)) =
        ((firstFrom (front ++ edge :: back) (edge + frameBits * bitPeriod receiver)).map
          (·, byte)).toList ∧
      (firstFrom (front ++ edge :: back) (edge + frameBits * bitPeriod receiver) ≠ none →
        ((Receiver.idle receiver).after
          (lineOf sender byte (front ++ edge :: back))).phase = .idle) := by
  obtain ⟨t, r, hwaits, ht, hr, hlineOf, hline⟩ :=
    lineOf_early receiver byte hhead hearly (edge :: back)
  obtain ⟨hlow, hcarries, hhears, hnone⟩ := hwaits.start hdue (by rw [ht]; exact hmargins.sending_pos)
    (by rw [hr]; exact hmargins.half)
  have ht' := (t.tick_bitPeriod edge).trans ht
  have hr' := (r.tick_bitPeriod edge false).trans hr
  obtain ⟨hdelivers, hidle⟩ := hcarries.delivers hhears (by rwa [ht', hr']) back hpaced
    (front.length + 1)
  rw [Transmitter.recording, hlow] at hlineOf
  have hover : ∀ time ∈ front ++ [edge], time < edge + frameBits * bitPeriod receiver := by
    have hhalf := hmargins.half
    have hpos : 0 < frameBits * bitPeriod receiver := Nat.mul_pos (by decide) (by omega)
    intro time htime
    rcases List.mem_append.mp htime with hfront | hedge
    · have := hearly time hfront
      omega
    · rw [List.mem_singleton.mp hedge]
      omega
  have hfirst := firstFrom_append_of_lt hover back
  rw [List.append_assoc, List.singleton_append] at hfirst
  rw [hr'] at hdelivers hidle
  rw [hlineOf, hfirst, (hline _).1, (hline _).2]
  refine ⟨⟨_, rfl⟩, ?_, fun hsome => hidle fun hno => hsome (by rw [hno]; rfl)⟩
  rw [Receiver.deliveries, hnone, hdelivers, Option.map_map, List.length_append]
  rfl

end Run

/-- A new transmitter sends one byte to a new receiver, whose bits are longer or shorter.  The line
falls with the first tick that comes one bit after the first one or later.  The byte, and nothing
else, is delivered with the first tick at which the receiver's ten bits are over, if there is one,
and the receiver stays idle from then on. -/
theorem mismatched_ends_deliver (sender receiver : UInt32) (byte : UInt8) (gap : Nat)
    (times : List Nat) (hmargins : Margins (bitPeriod sender) (bitPeriod receiver) gap)
    (hpaced : Paced gap times) :
    (∀ first, times.head? = some first → ∀ j, Falls (lineOf sender byte times) 0 j ↔
      firstFrom times (first + bitPeriod sender) = some j) ∧
    ((∀ j, ¬Falls (lineOf sender byte times) 0 j) →
      (Receiver.idle receiver).deliveries 0 (lineOf sender byte times) = []) ∧
    ∀ j edge, Falls (lineOf sender byte times) 0 j → times[j]? = some edge →
      (Receiver.idle receiver).deliveries 0 (lineOf sender byte times) =
        ((firstFrom times (edge + frameBits * bitPeriod receiver)).map (·, byte)).toList ∧
      ∀ c n, firstFrom times (edge + frameBits * bitPeriod receiver) = some c → c < n →
        ((Receiver.idle receiver).after ((lineOf sender byte times).take n)).phase = .idle := by
  cases hhead : times.head? with
  | none =>
    obtain rfl := List.head?_eq_none_iff.mp hhead
    refine ⟨by simp, fun _ => rfl, fun j edge _ hedge => ?_⟩
    simp at hedge
  | some first =>
    have hpos := hmargins.sending_pos
    rcases early_or_split times (first + bitPeriod sender) with
      hearly | ⟨front, edge, back, rfl, hearly, hdue⟩
    · obtain ⟨hline, hnothing⟩ := lineOf_of_early receiver byte hhead hearly
      have hnever := not_falls_of_high times 0
      have hnone : firstFrom times (first + bitPeriod sender) = none := by
        simpa [firstFrom] using firstFrom_append_of_lt hearly []
      refine ⟨fun first' hfirst j => ?_, fun _ => hnothing, fun j edge hfalls => ?_⟩
      · obtain rfl := Option.some.inj hfirst
        rw [hline, hnone]
        exact iff_of_false (hnever j) (by simp)
      · rw [hline] at hfalls
        exact absurd hfalls (hnever j)
    · have hfront : front ≠ [] := by
        rintro rfl
        obtain rfl := Option.some.inj hhead
        omega
      rw [List.head?_append_of_ne_nil front hfront] at hhead
      have hback : Paced gap (edge :: back) := hpaced.right_of_append
      obtain ⟨⟨line, hline⟩, hdelivers, -⟩ :=
        lineOf_of_start hmargins byte hhead hearly hdue hback
      have hfalls := falls_iff_of_high hfront edge line
      have hstart : firstFrom (front ++ edge :: back) (first + bitPeriod sender) =
          some front.length := by
        rw [firstFrom_append_of_lt hearly, firstFrom_cons_of_le hdue]
        rfl
      rw [← hline] at hfalls
      refine ⟨fun first' hfirst j => ?_, fun hnever => absurd ((hfalls _).mpr rfl) (hnever _),
        fun j edge' hj hedge' => ?_⟩
      · obtain rfl := Option.some.inj hfirst
        rw [hfalls, hstart, Option.some.injEq]
      · obtain rfl := (hfalls j).mp hj
        rw [List.getElem?_append_right (Nat.le_refl _), Nat.sub_self] at hedge'
        obtain rfl := Option.some.inj hedge'
        refine ⟨hdelivers, fun c n hc hn => ?_⟩
        -- The line up to sample `n` is the line of a run that ends there.
        have hafter : front.length < n := by
          rw [firstFrom_append_of_lt fun time htime => by have := hearly time htime; omega] at hc
          obtain ⟨k, -, rfl⟩ := Option.map_eq_some_iff.mp hc
          omega
        obtain ⟨m, rfl⟩ : ∃ m, n = front.length + (m + 1) := ⟨n - front.length - 1, by omega⟩
        have htake := firstFrom_take hc hn
        rw [List.take_length_add_append, List.take_succ_cons] at htake
        have hcut : Paced gap (edge :: back.take m) := List.IsChain.take hback (m + 1)
        obtain ⟨-, -, hidle⟩ := lineOf_of_start hmargins byte hhead hearly hdue hcut
        rw [lineOf, Transmitter.recording_take, List.take_length_add_append, List.take_succ_cons]
        exact hidle (by rw [htake]; simp)

/-- Ticks for bits of 100 nanoseconds at one end and of 97 at the other: some are as far apart as
these lengths allow, some at the same time. -/
def sparseTicks : List Nat := (List.range 42).map fun i => i / 3 * 104 + [0, 52, 52].getD (i % 3) 0

theorem mismatched_ends_deliver_sparseTicks :
    Margins (bitPeriod 10000000) (bitPeriod 10309278) 52 ∧ Paced 52 sparseTicks ∧
      Falls (lineOf 10000000 0xA6 sparseTicks) 0 3 ∧
      (Receiver.idle 10309278).deliveries 0 (lineOf 10000000 0xA6 sparseTicks) = [(31, 0xA6)] ∧
      ((Receiver.idle 10309278).after ((lineOf 10000000 0xA6 sparseTicks).take 32)).phase = .idle := by
  have hmargins : Margins (bitPeriod 10000000) (bitPeriod 10309278) 52 :=
    ⟨by decide, by decide, by decide, by decide⟩
  have hpaced : Paced 52 sparseTicks := by decide +kernel
  obtain ⟨hfalls, -, hdelivers⟩ :=
    mismatched_ends_deliver 10000000 10309278 0xA6 52 sparseTicks hmargins hpaced
  have hstart := (hfalls 0 (by decide) 3).mpr (by decide +kernel)
  obtain ⟨hbytes, hidle⟩ := hdelivers 3 104 hstart (by decide)
  have hend : firstFrom sparseTicks (104 + frameBits * bitPeriod 10309278) = some 31 := by
    decide +kernel
  refine ⟨hmargins, hpaced, hstart, ?_, hidle 31 32 hend (by decide)⟩
  rw [hbytes, hend]
  rfl

end PinBench.Serial
