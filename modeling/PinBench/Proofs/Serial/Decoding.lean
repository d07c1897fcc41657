import Mathlib.Data.Nat.Find
import Mathlib.Order.Bounds.Basic
import PinBench.Proofs.Serial.Hearing

/-! A decoder of sampled lines that is told whole recordings.  `Decodes` says which bytes a
recording holds, and at which of its samples each frame ends, in terms of the samples that are the
first ones to do something.  `deliveries_iff_decodes` says that a receiver that is given the samples
one by one delivers just these bytes at just these samples, whatever the line does and however
sparse the samples are. -/

namespace PinBench.Serial

/-- The level of a line at some time. -/
structure Sample where
  time : Time
  level : Bool
  deriving DecidableEq, Repr

/-! ### The decoder -/

section Decoder

variable (period : Nat) (samples : List Sample)

def levelAt (i : Nat) : Option Bool := samples[i]?.map (·.level)

/-- Sample `j` is low, and the one before it is high. -/
def Edge (j : Nat) : Prop :=
  1 ≤ j ∧ levelAt samples (j - 1) = some true ∧ levelAt samples j = some false

/-- Sample `j` is the first falling edge from sample `start` on. -/
def Falls (start j : Nat) : Prop := IsLeast {j | start ≤ j ∧ Edge samples j} j

/-- Sample `k` is the first after sample `i` that is taken at time `due` or later. -/
def FirstAt (i : Nat) (due : Time) (k : Nat) : Prop :=
  IsLeast {k | i < k ∧ ∃ s, samples[k]? = some s ∧ due ≤ s.time} k

/-- Half a bit after the falling edge of sample `j` the line is high: sample `i` shows it. -/
def Glitch (j i : Nat) : Prop :=
  ∃ edge, samples[j]? = some edge ∧ FirstAt samples j (edge.time + period / 2) i ∧
    levelAt samples i = some true

/-- The samples `points 1`, `points 2` and so on are the first ones half a bit after the falling
edge of sample `j`, one and a half bits after it and so on, each after the one before. -/
def Chain (j : Nat) (points : Nat → Nat) (m : Nat) : Prop :=
  points 0 = j ∧ ∃ edge, samples[j]? = some edge ∧
    ∀ k < m, FirstAt samples (points k) (edge.time + period / 2 + k * period) (points (k + 1))

/-- The falling edge of sample `j` starts a frame with this byte, which ends with sample `c`.  The
start bit is low after half a bit, each data bit is sampled a bit after the one before, and the
frame ends ten bits after the edge. -/
def Framed (j : Nat) (byte : UInt8) (c : Nat) : Prop :=
  ∃ points, Chain period samples j points 9 ∧ levelAt samples (points 1) = some false ∧
    (∀ k : Fin 8, levelAt samples (points (k + 2)) = some (dataBit byte k)) ∧
    ∃ edge, samples[j]? = some edge ∧
      FirstAt samples (points 9) (edge.time + frameBits * period) c

/-- What a recording holds from sample `start` on: the bytes, each with the sample that ends its
frame. -/
inductive Decodes : Nat → List (Nat × UInt8) → Prop where
  | quiet {start : Nat} : (∀ j, ¬Falls samples start j) → Decodes start []
  | glitch {start j i : Nat} {bytes : List (Nat × UInt8)} : Falls samples start j →
      Glitch period samples j i → Decodes i bytes → Decodes start bytes
  | frame {start j c : Nat} {byte : UInt8} {bytes : List (Nat × UInt8)} : Falls samples start j →
      Framed period samples j byte c → Decodes c bytes → Decodes start ((c, byte) :: bytes)
  | cut {start j : Nat} : Falls samples start j → (∀ i, ¬Glitch period samples j i) →
      (∀ byte c, ¬Framed period samples j byte c) → Decodes start []

end Decoder

/-! ### The receiver on a recording -/

namespace Receiver

/-- The bytes that a receiver yields for some samples, each with the number of its sample, when the
first sample has number `i`. -/
def deliveries (r : Receiver) (i : Nat) : List Sample → List (Nat × UInt8)
  | [] => []
  | s :: rest =>
    (r.tick s.time s.level).2.toList.map (i, ·) ++
      (r.tick s.time s.level).1.deliveries (i + 1) rest

/-- The receiver after some samples. -/
def after (r : Receiver) (samples : List Sample) : Receiver :=
  samples.foldl (fun r s => (r.tick s.time s.level).1) r

/-- What a receiver yields from sample `i` of a recording on. -/
def hears (r : Receiver) (samples : List Sample) (i : Nat) : List (Nat × UInt8) :=
  r.deliveries i (samples.drop i)

end Receiver

/-- The level before sample `i`. -/
def levelBefore (samples : List Sample) : Nat → Option Bool
  | 0 => none
  | i + 1 => levelAt samples i

variable {r : Receiver} {samples : List Sample} {s : Sample} {byte : UInt8} {i j k m start due : Nat}

theorem lt_length_of_levelAt {level : Bool} (h : levelAt samples i = some level) :
    i < samples.length := by
  obtain ⟨s, hs, -⟩ := Option.map_eq_some_iff.mp h
  exact (List.getElem?_eq_some_iff.mp hs).1

theorem FirstAt.lt_length (h : FirstAt samples i due k) : k < samples.length := by
  obtain ⟨s, hs, -⟩ := h.1.2
  exact (List.getElem?_eq_some_iff.mp hs).1

namespace Receiver

theorem hears_of_some (h : samples[i]? = some s) (r : Receiver) :
    r.hears samples i = (r.tick s.time s.level).2.toList.map (i, ·) ++
      (r.tick s.time s.level).1.hears samples (i + 1) := by
  obtain ⟨hi, hs⟩ := List.getElem?_eq_some_iff.mp h
  rw [hears, List.drop_eq_getElem_cons hi, hs]
  rfl

theorem hears_of_end (h : samples.length ≤ i) (r : Receiver) : r.hears samples i = [] := by
  rw [hears, List.drop_of_length_le h]
  rfl

/-- The receiver as it is when sample `i` comes next. -/
def facing (r : Receiver) (samples : List Sample) (i : Nat) : Receiver :=
  { r with previous := levelBefore samples i }

theorem facing_self (h : r.previous = levelBefore samples i) : r.facing samples i = r := by
  rw [facing, ← h]

theorem facing_succ (hs : samples[i]? = some s) (r : Receiver) :
    r.facing samples (i + 1) = { r with previous := some s.level } := by
  rw [facing, levelBefore, levelAt, hs, Option.map_some]

/-- Without a falling edge a receiver between frames does nothing. -/
theorem tick_rest (hidle : r.phase = .idle) (hs : samples[i]? = some s) (hquiet : ¬Edge samples i) :
    (r.facing samples i).tick s.time s.level = (r.facing samples (i + 1), none) := by
  have hstill : (r.facing samples i).begin s.time s.level = r.facing samples i := by
    rw [Receiver.begin, if_neg]
    rintro ⟨-, hbefore, hlow⟩
    refine hquiet ?_
    cases i with
    | zero => cases hbefore
    | succ i => exact ⟨by omega, hbefore, by rw [levelAt, hs, Option.map_some, hlow]⟩
  rw [tick_idle (r := r.facing samples i) hidle, hstill, facing_succ hs]
  rfl

/-- In a frame a receiver does nothing before a sample is due. -/
theorem tick_wait (hphase : r.phase ≠ .idle) (hs : samples[i]? = some s)
    (hearly : s.time < r.deadline) :
    (r.facing samples i).tick s.time s.level = (r.facing samples (i + 1), none) := by
  have hfollow : (r.facing samples i).follow s.time s.level = (r.facing samples i, none) :=
    follow_wait hearly
  have hbegin : (r.facing samples i).begin s.time s.level = r.facing samples i :=
    begin_of_phase hphase
  simp only [Receiver.tick, hfollow, hbegin, facing_succ hs]
  rfl

/-- As long as a receiver does nothing, it yields nothing. -/
theorem hears_skip (hle : start ≤ m) (hm : m ≤ samples.length)
    (hnothing : ∀ k s, start ≤ k → k < m → samples[k]? = some s →
      (r.facing samples k).tick s.time s.level = (r.facing samples (k + 1), none)) :
    (r.facing samples start).hears samples start = (r.facing samples m).hears samples m := by
  induction m, hle using Nat.le_induction with
  | base => rfl
  | succ m hle ih =>
    have hs : samples[m]? = some samples[m] := List.getElem?_eq_getElem (by omega)
    rw [ih (by omega) fun k s hk hlt => hnothing k s hk (by omega), hears_of_some hs,
      hnothing m _ hle (Nat.lt_succ_self m) hs]
    rfl

/-- A frame that is over, whatever came of it, leaves the receiver looking for the next edge from
the same sample on. -/
theorem hears_resume {r' : Receiver} {received : Option UInt8} (hs : samples[i]? = some s)
    (hfollow : r.follow s.time s.level = (r', received)) (hidle : r'.phase = .idle) :
    r.hears samples i = received.toList.map (i, ·) ++ r'.hears samples i := by
  have hrest : r'.tick s.time s.level =
      ({ r'.begin s.time s.level with previous := some s.level }, none) :=
    tick_idle hidle s.time s.level
  rw [hears_of_some hs, hears_of_some hs, hrest, Receiver.tick, hfollow]
  rfl

/-- A receiver between frames yields nothing before the next falling edge. -/
theorem hears_of_falls (hidle : r.phase = .idle) (hfalls : Falls samples start j) :
    (r.facing samples start).hears samples start = (r.facing samples j).hears samples j := by
  obtain ⟨⟨hle, -, -, hlow⟩, hleast⟩ := hfalls
  have hj : j < samples.length := lt_length_of_levelAt hlow
  refine hears_skip hle (Nat.le_of_lt hj) fun k s hk hlt hs => tick_rest hidle hs fun hedge => ?_
  exact Nat.not_lt.mpr (hleast ⟨hk, hedge⟩) hlt

/-- A receiver between frames yields nothing if no falling edge comes. -/
theorem hears_of_quiet (hidle : r.phase = .idle) (hquiet : ∀ k, start ≤ k → ¬Edge samples k) :
    (r.facing samples start).hears samples start = [] := by
  by_cases hend : samples.length ≤ start
  · exact hears_of_end hend _
  · rw [hears_skip (m := samples.length) (by omega) (Nat.le_refl _) fun k s hk _ hs =>
      tick_rest hidle hs (hquiet k hk)]
    exact hears_of_end (Nat.le_refl _) _

/-- A receiver in a frame yields nothing before the first sample that is due. -/
theorem hears_of_firstAt (hphase : r.phase ≠ .idle) (hdue : r.deadline = due)
    (hfirst : FirstAt samples i due k) :
    (r.facing samples (i + 1)).hears samples (i + 1) = (r.facing samples k).hears samples k := by
  have hk : k < samples.length := hfirst.lt_length
  obtain ⟨⟨hlt, -⟩, hleast⟩ := hfirst
  refine hears_skip hlt (Nat.le_of_lt hk) fun n s hn hnk hs => tick_wait hphase hs ?_
  rw [hdue]
  refine Nat.lt_of_not_le fun hle => Nat.not_lt.mpr (hleast ⟨hn, s, hs, hle⟩) hnk

/-- A receiver in a frame yields nothing if no sample is due any more. -/
theorem hears_of_none (hphase : r.phase ≠ .idle) (hdue : r.deadline = due)
    (hnone : ∀ k s, i < k → samples[k]? = some s → s.time < due) :
    (r.facing samples (i + 1)).hears samples (i + 1) = [] := by
  by_cases hend : samples.length ≤ i + 1
  · exact hears_of_end hend _
  · rw [hears_skip (m := samples.length) (by omega) (Nat.le_refl _) fun k s hk _ hs =>
      tick_wait hphase hs (hdue ▸ hnone k s hk hs)]
    exact hears_of_end (Nat.le_refl _) _

/-! ### A frame -/

/-- The receiver once it has seen a start edge at time `now`. -/
def started (r : Receiver) (now : Time) : Receiver :=
  { r with phase := .start, deadline := now + r.bitPeriod / 2, shift := 0 }

theorem sampled_started (r : Receiver) (now : Time) (byte : UInt8) :
    (r.started now).Sampled now byte 0 := by
  refine ⟨Nat.zero_le 9, rfl, fun i => ?_, ?_⟩
  · simp [started, dataBit_zero]
  · rw [sampleDue_of_lt (by decide), Nat.zero_mul, Nat.add_zero]
    rfl

theorem Sampled.facing (h : r.Sampled start byte m) (samples : List Sample) (i : Nat) :
    (r.facing samples i).Sampled start byte m := ⟨h.le, h.phase, h.shift, h.deadline⟩

theorem Sampled.deadline_eq (h : r.Sampled start byte m) (hm : m < 9) :
    r.deadline = start + r.bitPeriod / 2 + m * r.bitPeriod := by
  rw [← h.deadline, sampleDue_of_lt hm, Nat.add_assoc]

theorem Sampled.phase_ne_idle (h : r.Sampled start byte m) : r.phase ≠ .idle := by
  rw [h.phase]
  exact slot_ne_idle m

/-- A falling edge starts a frame. -/
theorem hears_of_edge (hidle : r.phase = .idle) (hedge : Edge samples j) (hs : samples[j]? = some s) :
    (r.facing samples j).hears samples j =
      ((r.started s.time).facing samples (j + 1)).hears samples (j + 1) := by
  obtain ⟨hpos, hhigh, hlow⟩ := hedge
  have hlevel : s.level = false := by
    rw [levelAt, hs, Option.map_some, Option.some.injEq] at hlow
    exact hlow
  have hprev : (r.facing samples j).previous = some true := by
    obtain ⟨i, rfl⟩ : ∃ i, j = i + 1 := ⟨j - 1, by omega⟩
    exact hhigh
  have hbegin : (r.facing samples j).begin s.time s.level =
      (r.started s.time).facing samples j := by
    rw [Receiver.begin, if_pos ⟨hidle, hprev, hlevel⟩]
    rfl
  rw [hears_of_some hs, tick_idle (r := r.facing samples j) hidle, hbegin, facing_succ hs]
  rfl

/-- A sample that is due is taken, and the frame goes on. -/
theorem Sampled.hears_next (h : r.Sampled start byte m) (hm : m < 9)
    (hfirst : FirstAt samples i (start + r.bitPeriod / 2 + m * r.bitPeriod) k)
    (hlevel : levelAt samples k = some (slotLevel byte m)) :
    ∃ r' : Receiver, r'.Sampled start byte (m + 1) ∧ r'.bitPeriod = r.bitPeriod ∧
      (r.facing samples (i + 1)).hears samples (i + 1) =
        (r'.facing samples (k + 1)).hears samples (k + 1) := by
  have hdeadline := h.deadline_eq hm
  obtain ⟨s, hs, hdue⟩ := hfirst.1.2
  have hline : s.level = slotLevel byte m := by
    rw [levelAt, hs, Option.map_some, Option.some.injEq] at hlevel
    exact hlevel
  obtain ⟨hsampled, hnone, hperiod⟩ := (h.facing samples k).follow_next hm
    (Nat.not_lt.mpr (hdeadline ▸ hdue) : ¬s.time < r.deadline) hline
  refine ⟨_, hsampled, hperiod, ?_⟩
  rw [hears_of_firstAt h.phase_ne_idle hdeadline hfirst, hears_of_some hs, facing_succ hs]
  simp only [Receiver.tick, hnone, begin_of_phase hsampled.phase_ne_idle]
  rfl

/-- The receiver takes the samples of a frame one after another, as long as they show one byte. -/
theorem hears_of_chain {points : Nat → Nat} (hidle : r.phase = .idle) (hedge : Edge samples j)
    (hs : samples[j]? = some s) (hchain : Chain r.bitPeriod samples j points m) (hm : m ≤ 9)
    (hlevels : ∀ k < m, levelAt samples (points (k + 1)) = some (slotLevel byte k)) :
    ∃ r' : Receiver, r'.Sampled s.time byte m ∧ r'.bitPeriod = r.bitPeriod ∧
      (r.facing samples j).hears samples j =
        (r'.facing samples (points m + 1)).hears samples (points m + 1) := by
  obtain ⟨hzero, edge, hs', hfirst⟩ := hchain
  obtain rfl : s = edge := Option.some.inj (hs.symm.trans hs')
  induction m with
  | zero =>
    rw [hzero]
    exact ⟨r.started s.time, sampled_started r s.time byte, rfl, hears_of_edge hidle hedge hs⟩
  | succ m ih =>
    obtain ⟨r', hsampled, hperiod, hhears⟩ := ih (by omega)
      (fun k hk => hlevels k (by omega)) (fun k hk => hfirst k (by omega))
    have hnext := hfirst m (Nat.lt_succ_self m)
    rw [← hperiod] at hnext
    obtain ⟨r'', hsampled', hperiod', hhears'⟩ :=
      hsampled.hears_next (by omega) hnext (hlevels m (Nat.lt_succ_self m))
    exact ⟨r'', hsampled', hperiod'.trans hperiod, hhears.trans hhears'⟩

/-- A start bit that is high when it is sampled starts no frame. -/
theorem hears_of_glitch (hidle : r.phase = .idle) (hedge : Edge samples j)
    (hglitch : Glitch r.bitPeriod samples j i) :
    ∃ r' : Receiver, r'.phase = .idle ∧ r'.bitPeriod = r.bitPeriod ∧
      (r.facing samples j).hears samples j = (r'.facing samples i).hears samples i := by
  obtain ⟨s, hs, hfirst, hhigh⟩ := hglitch
  obtain ⟨s', hs', hdue⟩ := hfirst.1.2
  have hline : s'.level = true := by
    rw [levelAt, hs', Option.map_some, Option.some.injEq] at hhigh
    exact hhigh
  have hstart : (r.started s.time).phase ≠ .idle := (sampled_started r s.time 0).phase_ne_idle
  have hnot : ¬(((r.started s.time).facing samples i).phase = .idle ∨
      s'.time < ((r.started s.time).facing samples i).deadline) :=
    not_or.mpr ⟨hstart, Nat.not_lt.mpr hdue⟩
  have hfollow : ((r.started s.time).facing samples i).follow s'.time s'.level =
      ({ r.started s.time with phase := .idle }.facing samples i, none) := by
    rw [follow, if_neg hnot, hline]
    rfl
  refine ⟨{ r.started s.time with phase := .idle }, rfl, rfl, ?_⟩
  rw [hears_of_edge hidle hedge hs, hears_of_firstAt hstart rfl hfirst,
    hears_resume hs' hfollow rfl]
  rfl

/-- A frame yields its byte. -/
theorem hears_of_framed (hidle : r.phase = .idle) (hedge : Edge samples j)
    (hframed : Framed r.bitPeriod samples j byte i) :
    ∃ r' : Receiver, r'.phase = .idle ∧ r'.bitPeriod = r.bitPeriod ∧
      (r.facing samples j).hears samples j =
        (i, byte) :: (r'.facing samples i).hears samples i := by
  obtain ⟨points, hchain, hlow, hbits, s, hs, hend⟩ := hframed
  have hlevels : ∀ k < 9, levelAt samples (points (k + 1)) = some (slotLevel byte k) := by
    intro k hk
    cases k with
    | zero => exact hlow
    | succ k =>
      rw [slotLevel, dif_pos (by omega)]
      exact hbits ⟨k, by omega⟩
  obtain ⟨r', hsampled, hperiod, hhears⟩ :=
    hears_of_chain hidle hedge hs hchain (Nat.le_refl 9) hlevels
  obtain ⟨s', hs', hdue⟩ := hend.1.2
  have hdeadline : r'.deadline = s.time + frameBits * r.bitPeriod := by
    rw [← hsampled.deadline, sampleDue_nine, hperiod]
  have hnot : ¬s'.time < (r'.facing samples i).deadline := Nat.not_lt.mpr (hdeadline ▸ hdue)
  have hfollow : (r'.facing samples i).follow s'.time s'.level =
      ({ r'.facing samples i with phase := .idle }, some byte) :=
    (hsampled.facing samples i).follow_last hnot
  refine ⟨{ r' with phase := .idle }, rfl, hperiod, ?_⟩
  rw [hhears, hears_of_firstAt hsampled.phase_ne_idle hdeadline hend, hears_resume hs' hfollow rfl]
  rfl

end Receiver

/-! ### Recordings that end in a frame -/

theorem exists_isLeast {p : Nat → Prop} (h : ∃ k, p k) : ∃ k, IsLeast {k | p k} k := by
  classical
  exact ⟨Nat.find h, Nat.find_spec h, fun _ hk => Nat.find_min' h hk⟩

theorem firstAt_or_none (samples : List Sample) (i due : Nat) :
    (∃ k, FirstAt samples i due k) ∨
      ∀ k s, i < k → samples[k]? = some s → s.time < due := by
  by_cases h : ∃ k, i < k ∧ ∃ s, samples[k]? = some s ∧ due ≤ s.time
  · exact .inl (exists_isLeast h)
  · exact .inr fun k s hk hs => Nat.lt_of_not_le fun hdue => h ⟨k, hk, s, hs, hdue⟩

/-- The samples of a frame come to an end with the ninth or because none is due any more. -/
theorem exists_chain (hs : samples[j]? = some s) (period : Nat) : ∃ m ≤ 9, ∃ points,
    Chain period samples j points m ∧ (m < 9 → ∀ k s', points m < k → samples[k]? = some s' →
      s'.time < s.time + period / 2 + m * period) := by
  have hupto : ∀ n, (∃ points, Chain period samples j points n) ∨ ∃ m < n, ∃ points,
      Chain period samples j points m ∧ ∀ k s', points m < k → samples[k]? = some s' →
        s'.time < s.time + period / 2 + m * period := by
    intro n
    induction n with
    | zero => exact .inl ⟨fun _ => j, rfl, s, hs, fun k hk => absurd hk (Nat.not_lt_zero k)⟩
    | succ n ih =>
      rcases ih with ⟨points, hchain⟩ | ⟨m, hm, hstop⟩
      · rcases firstAt_or_none samples (points n) (s.time + period / 2 + n * period) with
          ⟨next, hnext⟩ | hnone
        · obtain ⟨hzero, edge, hs', hfirst⟩ := hchain
          obtain rfl : s = edge := Option.some.inj (hs.symm.trans hs')
          refine .inl ⟨fun k => if k ≤ n then points k else next, by simp [hzero], s, hs,
            fun k hk => ?_⟩
          rcases Nat.lt_or_eq_of_le (Nat.le_of_lt_succ hk) with hlt | rfl
          · simpa only [if_pos (Nat.le_of_lt hlt), if_pos (Nat.succ_le_of_lt hlt)] using hfirst k hlt
          · simpa only [if_pos (Nat.le_refl k), if_neg (Nat.not_succ_le_self k)] using hnext
        · exact .inr ⟨n, Nat.lt_succ_self n, points, hchain, hnone⟩
      · exact .inr ⟨m, Nat.lt_succ_of_lt hm, hstop⟩
  rcases hupto 9 with ⟨points, hchain⟩ | ⟨m, hm, points, hchain, hstop⟩
  · exact ⟨9, Nat.le_refl 9, points, hchain, fun h => absurd h (Nat.lt_irrefl 9)⟩
  · exact ⟨m, Nat.le_of_lt hm, points, hchain, fun _ => hstop⟩

theorem exists_byte (bits : Fin 8 → Bool) : ∃ byte, ∀ k, dataBit byte k = bits k := by
  have hupto : ∀ n ≤ 8, ∃ byte, ∀ k : Fin 8, dataBit byte k = (decide (k.val < n) && bits k) := by
    intro n hn
    induction n with
    | zero => exact ⟨0, fun k => by simp [dataBit_zero]⟩
    | succ n ih =>
      obtain ⟨byte, hbyte⟩ := ih (by omega)
      refine ⟨raiseBit byte ⟨n, by omega⟩ (bits ⟨n, by omega⟩), fun k => ?_⟩
      rw [dataBit_raiseBit, hbyte]
      by_cases hk : k = ⟨n, by omega⟩
      · subst hk
        simp
      · have hne : k.val ≠ n := fun h => hk (Fin.ext h)
        have hiff : k.val < n + 1 ↔ k.val < n := by omega
        simp [hk, hiff]
  obtain ⟨byte, hbyte⟩ := hupto 8 (Nat.le_refl 8)
  exact ⟨byte, fun k => by simpa using hbyte k⟩

/-- A frame that the recording cuts off yields nothing. -/
theorem Receiver.hears_of_cut (hidle : r.phase = .idle) (hedge : Edge samples j)
    (hglitch : ∀ i, ¬Glitch r.bitPeriod samples j i)
    (hframed : ∀ byte c, ¬Framed r.bitPeriod samples j byte c) :
    (r.facing samples j).hears samples j = [] := by
  obtain ⟨s, hs, -⟩ := Option.map_eq_some_iff.mp hedge.2.2
  obtain ⟨m, hm, points, hchain, hstop⟩ := exists_chain hs r.bitPeriod
  obtain ⟨byte, hbyte⟩ := exists_byte fun k => (levelAt samples (points (k + 2))).getD false
  obtain ⟨hzero, edge, hs', hfirst⟩ := hchain
  obtain rfl : s = edge := Option.some.inj (hs.symm.trans hs')
  have hsome : ∀ k < m, levelAt samples (points (k + 1)) =
      some ((levelAt samples (points (k + 1))).getD false) := by
    intro k hk
    obtain ⟨s', hs', -⟩ := (hfirst k hk).1.2
    rw [levelAt, hs']
    rfl
  -- The start bit was low, or there would be a glitch.
  have hlow : 0 < m → levelAt samples (points 1) = some false := by
    intro hpos
    cases hlevel : (levelAt samples (points 1)).getD false with
    | false => rw [hsome 0 hpos, hlevel]
    | true =>
      refine absurd ⟨s, hs, ?_, ?_⟩ (hglitch (points 1))
      · simpa [hzero] using hfirst 0 hpos
      · rw [hsome 0 hpos, hlevel]
  have hlevels : ∀ k < m, levelAt samples (points (k + 1)) = some (slotLevel byte k) := by
    intro k hk
    cases k with
    | zero => exact hlow hk
    | succ k => rw [slotLevel, dif_pos (by omega), hbyte, ← hsome (k + 1) hk]
  obtain ⟨r', hsampled, hperiod, hhears⟩ :=
    hears_of_chain hidle hedge hs ⟨hzero, s, hs, hfirst⟩ hm hlevels
  rw [hhears]
  refine hears_of_none hsampled.phase_ne_idle hsampled.deadline.symm fun k s' hk hs' => ?_
  rcases Nat.lt_or_eq_of_le hm with hlt | rfl
  · rw [sampleDue_of_lt hlt, hperiod, ← Nat.add_assoc]
    exact hstop hlt k s' hk hs'
  · -- All nine samples were taken, so only the end of the frame can be missing.
    rw [sampleDue_nine, hperiod]
    rcases firstAt_or_none samples (points 9) (s.time + frameBits * r.bitPeriod) with
      ⟨c, hend⟩ | hnone
    · refine absurd ⟨points, ⟨hzero, s, hs, hfirst⟩, hlow (by decide), fun k => ?_, s, hs, hend⟩
        (hframed byte c)
      rw [hbyte, ← hsome (k + 1) (by omega)]
    · exact hnone k s' hk hs'

/-! ### The receiver and the decoder -/

/-- A receiver between frames yields from sample `start` on what the recording holds from there. -/
theorem Decodes.hears_eq {bytes : List (Nat × UInt8)} (h : Decodes r.bitPeriod samples start bytes)
    (hidle : r.phase = .idle) : (r.facing samples start).hears samples start = bytes := by
  generalize hperiod : r.bitPeriod = period at h
  induction h generalizing r with
  | quiet hnone =>
    refine Receiver.hears_of_quiet hidle fun k hk hedge => ?_
    obtain ⟨j, hj⟩ := exists_isLeast (p := fun j => _ ≤ j ∧ Edge samples j) ⟨k, hk, hedge⟩
    exact hnone j hj
  | glitch hfalls hglitch _ ih =>
    subst hperiod
    obtain ⟨r', hidle', hperiod', hhears⟩ :=
      Receiver.hears_of_glitch hidle hfalls.1.2 hglitch
    rw [Receiver.hears_of_falls hidle hfalls, hhears, ih hidle' hperiod']
  | frame hfalls hframed _ ih =>
    subst hperiod
    obtain ⟨r', hidle', hperiod', hhears⟩ := Receiver.hears_of_framed hidle hfalls.1.2 hframed
    rw [Receiver.hears_of_falls hidle hfalls, hhears, ih hidle' hperiod']
  | cut hfalls hglitch hframed =>
    subst hperiod
    rw [Receiver.hears_of_falls hidle hfalls]
    exact Receiver.hears_of_cut hidle hfalls.1.2 hglitch hframed

theorem Glitch.lt {period : Nat} (h : Glitch period samples j i) : j < i ∧ i < samples.length := by
  obtain ⟨s, -, hfirst, -⟩ := h
  exact ⟨hfirst.1.1, hfirst.lt_length⟩

theorem Framed.lt {period : Nat} (h : Framed period samples j byte i) :
    j < i ∧ i < samples.length := by
  obtain ⟨points, ⟨hzero, s, hs, hfirst⟩, -, -, s', hs', hend⟩ := h
  have hupto : ∀ m ≤ 9, j ≤ points m := by
    intro m hm
    induction m with
    | zero => exact Nat.le_of_eq hzero.symm
    | succ m ih =>
      have hnext := (hfirst m (by omega)).1.1
      have hsofar := ih (by omega)
      omega
  exact ⟨Nat.lt_of_le_of_lt (hupto 9 (Nat.le_refl 9)) hend.1.1, hend.lt_length⟩

/-- Every recording can be decoded. -/
theorem exists_decodes (period : Nat) (samples : List Sample) (start : Nat) :
    ∃ bytes, Decodes period samples start bytes := by
  induction hleft : samples.length - start using Nat.strong_induction_on generalizing start with
  | _ left ih =>
    by_cases hfall : ∃ j, Falls samples start j
    · obtain ⟨j, hfalls⟩ := hfall
      have hj : start ≤ j := hfalls.1.1
      by_cases hglitch : ∃ i, Glitch period samples j i
      · obtain ⟨i, hi⟩ := hglitch
        have hlt := hi.lt
        obtain ⟨bytes, hbytes⟩ := ih (samples.length - i) (by omega) i rfl
        exact ⟨bytes, .glitch hfalls hi hbytes⟩
      · by_cases hframed : ∃ byte c, Framed period samples j byte c
        · obtain ⟨byte, c, hc⟩ := hframed
          have hlt := hc.lt
          obtain ⟨bytes, hbytes⟩ := ih (samples.length - c) (by omega) c rfl
          exact ⟨(c, byte) :: bytes, .frame hfalls hc hbytes⟩
        · exact ⟨[], .cut hfalls (fun i hi => hglitch ⟨i, hi⟩)
            fun byte c hc => hframed ⟨byte, c, hc⟩⟩
    · exact ⟨[], .quiet fun j hj => hfall ⟨j, hj⟩⟩

/-- The bytes of a recording are at least a frame apart. -/
theorem Decodes.apart {period : Nat} {bytes : List (Nat × UInt8)}
    (h : Decodes period samples start bytes)
    (hsorted : samples.Pairwise fun a b => a.time ≤ b.time) :
    (∀ d ∈ bytes, ∃ j s s', start ≤ j ∧ samples[j]? = some s ∧ samples[d.1]? = some s' ∧
      s.time + frameBits * period ≤ s'.time) ∧
    bytes.Pairwise fun a b => ∀ s s', samples[a.1]? = some s → samples[b.1]? = some s' →
      s.time + frameBits * period ≤ s'.time := by
  have hmono : ∀ {a b : Nat} {s s' : Sample}, a ≤ b → samples[a]? = some s →
      samples[b]? = some s' → s.time ≤ s'.time := by
    intro a b s s' hab hs hs'
    obtain ⟨ha, rfl⟩ := List.getElem?_eq_some_iff.mp hs
    obtain ⟨hb, rfl⟩ := List.getElem?_eq_some_iff.mp hs'
    rcases Nat.lt_or_eq_of_le hab with hlt | rfl
    · exact List.pairwise_iff_getElem.mp hsorted a b ha hb hlt
    · exact Nat.le_refl _
  induction h with
  | quiet | cut => simp
  | glitch hfalls hglitch _ ih =>
    refine ⟨fun d hd => ?_, ih.2⟩
    obtain ⟨j, s, s', hj, hrest⟩ := ih.1 d hd
    have hlt := hglitch.lt.1
    have hle : _ ≤ _ := hfalls.1.1
    exact ⟨j, s, s', by omega, hrest⟩
  | frame hfalls hframed _ ih =>
    have hlt := hframed.lt.1
    have hle : _ ≤ _ := hfalls.1.1
    obtain ⟨points, -, -, -, s, hs, hend⟩ := hframed
    obtain ⟨s', hs', hdue⟩ := hend.1.2
    refine ⟨fun d hd => ?_, List.pairwise_cons.mpr ⟨fun d hd a b ha hb => ?_, ih.2⟩⟩
    · rcases List.mem_cons.mp hd with rfl | hd
      · exact ⟨_, s, s', hle, hs, hs', hdue⟩
      · obtain ⟨j, a, b, hj, hrest⟩ := ih.1 d hd
        exact ⟨j, a, b, by omega, hrest⟩
    · -- The next frame starts no earlier than this one ends.
      obtain ⟨j, a', b', hj, ha', hb', hfar⟩ := ih.1 d hd
      obtain rfl : b = b' := Option.some.inj (hb.symm.trans hb')
      exact Nat.le_trans (Nat.add_le_add_right (hmono hj ha ha') _) hfar

theorem Receiver.after_concat (r : Receiver) (samples : List Sample) (s : Sample) :
    r.after (samples ++ [s]) = ((r.after samples).tick s.time s.level).1 := by
  simp only [Receiver.after, List.foldl_append, List.foldl_cons, List.foldl_nil]

/-- A receiver whose line never falls stays between frames. -/
theorem Receiver.after_of_quiet (hidle : r.phase = .idle) (hprev : r.previous = none)
    (hquiet : ∀ k, ¬Edge samples k) (n : Nat) :
    r.after (samples.take n) = r.facing samples (min n samples.length) := by
  induction n with
  | zero =>
    rw [List.take_zero, Nat.zero_min]
    exact (facing_self hprev).symm
  | succ n ih =>
    by_cases hn : n < samples.length
    · have hs : samples[n]? = some samples[n] := List.getElem?_eq_getElem hn
      rw [Nat.min_eq_left (Nat.le_of_lt hn)] at ih
      rw [List.take_succ_eq_append_getElem hn, after_concat, ih, tick_rest hidle hs (hquiet n),
        Nat.min_eq_left hn]
    · rw [Nat.min_eq_right (Nat.le_of_not_lt hn)] at ih
      rw [List.take_of_length_le (by omega), Nat.min_eq_right (by omega), ← ih,
        List.take_of_length_le (by omega)]

/-- For every recording of a line, in whatever order its samples may come, a new receiver delivers
the bytes that the decoder finds in it, at the samples that end their frames, and nothing else.  It
never leaves its idle phase on a line that never falls, and if the samples come in the order of
time, its bytes are at least a frame apart. -/
theorem deliveries_iff_decodes (baudRate : UInt32) (samples : List Sample) :
    (∀ bytes, Decodes (bitPeriod baudRate) samples 0 bytes ↔
      (Receiver.idle baudRate).deliveries 0 samples = bytes) ∧
    ((∀ k, ¬Edge samples k) → ∀ n, ((Receiver.idle baudRate).after (samples.take n)).phase = .idle) ∧
    ((samples.Pairwise fun a b => a.time ≤ b.time) →
      ((Receiver.idle baudRate).deliveries 0 samples).Pairwise fun a b =>
        ∀ s s', samples[a.1]? = some s → samples[b.1]? = some s' →
          s.time + frameBits * bitPeriod baudRate ≤ s'.time) := by
  have hears : ∀ bytes, Decodes (bitPeriod baudRate) samples 0 bytes →
      (Receiver.idle baudRate).deliveries 0 samples = bytes :=
    fun bytes h => Decodes.hears_eq (r := .idle baudRate) h rfl
  obtain ⟨bytes, hdecodes⟩ := exists_decodes (bitPeriod baudRate) samples 0
  refine ⟨fun bytes' => ⟨hears bytes', ?_⟩, fun hquiet n => ?_, fun hsorted => ?_⟩
  · rintro rfl
    rwa [hears bytes hdecodes]
  · rw [Receiver.after_of_quiet rfl rfl hquiet n]
    rfl
  · rw [hears bytes hdecodes]
    exact (hdecodes.apart hsorted).2

/-- Two frames of ten-nanosecond bits, with a sample for each bit.  The sample that ends the first
is the start edge of the second. -/
def twoFrames : List Sample :=
  [⟨0, true⟩, ⟨10, false⟩, ⟨15, false⟩, ⟨25, true⟩, ⟨35, false⟩, ⟨45, false⟩, ⟨55, false⟩,
    ⟨65, false⟩, ⟨75, false⟩, ⟨85, true⟩, ⟨95, true⟩, ⟨110, false⟩, ⟨115, false⟩, ⟨125, false⟩,
    ⟨135, true⟩, ⟨145, false⟩, ⟨155, false⟩, ⟨165, false⟩, ⟨175, false⟩, ⟨185, true⟩,
    ⟨195, false⟩, ⟨210, true⟩]

/-- A line that rises and stays high. -/
def risingLine : List Sample := [⟨0, false⟩, ⟨10, true⟩, ⟨400, true⟩]

theorem deliveries_iff_decodes_twoFrames :
    (∀ k, ¬Edge risingLine k) ∧ (twoFrames.Pairwise fun a b => a.time ≤ b.time) ∧
      Decodes (bitPeriod 100000000) twoFrames 0 [(11, 0xC1), (21, 0x42)] ∧
      ((Receiver.idle 100000000).after risingLine).phase = .idle ∧
      ((Receiver.idle 100000000).deliveries 0 twoFrames).Pairwise fun a b =>
        ∀ s s', twoFrames[a.1]? = some s → twoFrames[b.1]? = some s' →
          s.time + frameBits * bitPeriod 100000000 ≤ s'.time := by
  have hrising : ∀ k, ¬Edge risingLine k := by
    rintro k ⟨hpos, -, hlow⟩
    have hk : k < 3 := lt_length_of_levelAt hlow
    have hhigh : ∀ i < 3, 1 ≤ i → levelAt risingLine i ≠ some false := by decide
    exact hhigh k hk hpos hlow
  have hsorted : twoFrames.Pairwise fun a b => a.time ≤ b.time := by decide
  obtain ⟨hdecodes, -, hapart⟩ := deliveries_iff_decodes 100000000 twoFrames
  obtain ⟨-, hidle, -⟩ := deliveries_iff_decodes 100000000 risingLine
  exact ⟨hrising, hsorted, (hdecodes _).mpr (by decide +kernel), hidle hrising 3, hapart hsorted⟩

end PinBench.Serial
