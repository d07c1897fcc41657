import PinBench.Proofs.Pins.Driving
import PinBench.Proofs.Serial.Hearing
import PinBench.Serial.Words

/-! A serial link with its deadlines in words.  No sum that a tick at time `now` takes is more than
two bits after `now`, so a tick that is early enough is the exact one (`Link.InWords.tickIn_eq`).
Where sums wrap, every tick comes to something (`Link.tickIn_wraps`). -/

namespace PinBench

namespace Overflow

variable {o : Overflow} {sum : Nat} {word : Time}

theorem word?_of_le (h : sum ≤ Time.latest) : o.word? sum = some sum := if_pos h

theorem le_of_word? (h : o.word? sum = some word) : word ≤ Time.latest := by
  unfold word? at h
  split at h
  · rename_i hfits
    exact Option.some.inj h ▸ hfits
  · cases o with
    | stops => cases h
    | wraps =>
      have hlt : sum % UInt64.size < UInt64.size := Nat.mod_lt _ (by decide)
      exact Option.some.inj h ▸ Nat.le_pred_of_lt hlt

theorem word?_wraps (sum : Nat) : ∃ word, wraps.word? sum = some word := by
  unfold word?
  split <;> exact ⟨_, rfl⟩

end Overflow

namespace Serial

variable {o : Overflow} {now : Time}

/-! ### The transmitter -/

namespace Transmitter

variable {t t' : Transmitter} {sent : Option UInt8}

/-- A deadline that has been met is put off by one bit. -/
theorem follow_deadline_le (t : Transmitter) (now : Nat) :
    (t.follow now).1.deadline ≤ t.deadline ∨
      (t.follow now).1.deadline ≤ now + t.bitPeriod := by
  unfold follow
  split
  · exact .inl (Nat.le_refl t.deadline)
  · rename_i hnot
    have hdue : t.deadline ≤ now := Nat.le_of_not_lt (not_or.mp hnot).2
    have hnext : t.deadline + t.bitPeriod ≤ now + t.bitPeriod := Nat.add_le_add_right hdue _
    split
    · exact .inl (Nat.le_refl t.deadline)
    · exact .inr hnext
    · split <;> exact .inr hnext
    · exact .inl (Nat.le_refl t.deadline)

theorem begin_deadline_le (t : Transmitter) (now : Nat) :
    (t.begin now).deadline ≤ t.deadline ∨ (t.begin now).deadline ≤ now + t.bitPeriod := by
  simp only [begin]
  split
  · split
    · exact .inr (Nat.le_refl (now + t.bitPeriod))
    · exact .inl (Nat.le_refl t.deadline)
  · exact .inl (Nat.le_refl t.deadline)

/-- A transmitter that knows already from when on it may start begins as one that finds out. -/
theorem begin_of_ready (t : Transmitter) (now : Time) :
    begin { t with readyAt := some (t.readyAt.getD (now + t.bitPeriod)) } now = t.begin now := rfl

theorem beginIn_eq (hdeadline : t.deadline ≤ Time.latest) (hfits : now + t.bitPeriod ≤ Time.latest) :
    t.beginIn o now = some (t.begin now) := by
  have hnext : (t.begin now).deadline ≤ Time.latest :=
    (t.begin_deadline_le now).elim (Nat.le_trans · hdeadline) (Nat.le_trans · hfits)
  simp only [beginIn, Overflow.word?_of_le hfits, begin_of_ready, Overflow.word?_of_le hnext,
    Option.bind_eq_bind, Option.bind_some, Option.pure_def]

/-- As long as the sums fit, a tick is the exact one. -/
theorem tickIn_eq (hdeadline : t.deadline ≤ Time.latest) (hfits : now + t.bitPeriod ≤ Time.latest) :
    t.tickIn o now = some (t.tick now) := by
  have hnext : (t.follow now).1.deadline ≤ Time.latest :=
    (t.follow_deadline_le now).elim (Nat.le_trans · hdeadline) (Nat.le_trans · hfits)
  have hbegin : (t.follow now).1.beginIn o now = some ((t.follow now).1.begin now) :=
    beginIn_eq hnext (by rwa [follow_bitPeriod])
  simp only [tickIn, Transmitter.tick, Overflow.word?_of_le hnext, Option.bind_eq_bind,
    Option.bind_some, Option.pure_def, hbegin]
  split <;> rfl

/-- The deadline is a word after every tick. -/
theorem word_of_tickIn (h : t.tickIn o now = some (t', sent)) :
    t'.deadline ≤ Time.latest ∧ t'.bitPeriod = t.bitPeriod := by
  simp only [tickIn, Option.bind_eq_bind, Option.bind_eq_some_iff, Option.pure_def] at h
  obtain ⟨deadline, hdeadline, h⟩ := h
  split at h
  · obtain ⟨t₁, hbegin, h⟩ := Option.bind_eq_some_iff.mp h
    obtain ⟨rfl, -⟩ := Prod.mk.inj (Option.some.inj h)
    simp only [beginIn, Option.bind_eq_bind, Option.bind_eq_some_iff, Option.pure_def,
      Option.some.injEq] at hbegin
    obtain ⟨due, -, word, hword, rfl⟩ := hbegin
    refine ⟨Overflow.le_of_word? hword, ?_⟩
    exact (begin_bitPeriod _ now).trans (t.follow_bitPeriod now)
  · obtain ⟨rfl, -⟩ := Prod.mk.inj (Option.some.inj h)
    exact ⟨Overflow.le_of_word? hdeadline, t.follow_bitPeriod now⟩

theorem beginIn_wraps (t : Transmitter) (now : Time) : ∃ next, t.beginIn .wraps now = some next := by
  obtain ⟨due, hdue⟩ := Overflow.word?_wraps (now + t.bitPeriod)
  obtain ⟨deadline, hdeadline⟩ := Overflow.word?_wraps
    (begin { t with readyAt := some (t.readyAt.getD due) } now).deadline
  simp only [beginIn, hdue, hdeadline, Option.bind_eq_bind, Option.bind_some, Option.pure_def]
  exact ⟨_, rfl⟩

theorem tickIn_wraps (t : Transmitter) (now : Time) : ∃ next, t.tickIn .wraps now = some next := by
  obtain ⟨deadline, hdeadline⟩ := Overflow.word?_wraps (t.follow now).1.deadline
  obtain ⟨next, hnext⟩ := beginIn_wraps { (t.follow now).1 with deadline } now
  simp only [tickIn, hdeadline, hnext, Option.bind_eq_bind, Option.bind_some, Option.pure_def]
  split <;> exact ⟨_, rfl⟩

end Transmitter

/-! ### The receiver -/

namespace Receiver

variable {r r' : Receiver} {line : Bool} {received : Option UInt8}

/-- A deadline that has been met is put off by at most two bits. -/
theorem follow_deadline_le (r : Receiver) (now : Nat) (line : Bool) :
    (r.follow now line).1.deadline ≤ r.deadline ∨
      (r.follow now line).1.deadline ≤ now + 2 * r.bitPeriod := by
  unfold follow
  split
  · exact .inl (Nat.le_refl r.deadline)
  · rename_i hnot
    have hdue : r.deadline ≤ now := Nat.le_of_not_lt (not_or.mp hnot).2
    have hlate (wait : Nat) (hwait : wait ≤ 2 * r.bitPeriod) :
        r.deadline + wait ≤ now + 2 * r.bitPeriod := Nat.add_le_add hdue hwait
    split
    · exact .inl (Nat.le_refl r.deadline)
    · split
      · exact .inl (Nat.le_refl r.deadline)
      · exact .inr (hlate _ (by omega))
    · simp only
      split
      · exact .inr (hlate _ (by omega))
      · exact .inr (hlate _ (by omega))
    · exact .inl (Nat.le_refl r.deadline)

theorem tick_deadline_le (r : Receiver) (now : Nat) (line : Bool) :
    (r.tick now line).1.deadline ≤ r.deadline ∨
      (r.tick now line).1.deadline ≤ now + 2 * r.bitPeriod := by
  simp only [Receiver.tick, begin]
  split
  · rw [follow_bitPeriod]
    exact .inr (Nat.add_le_add_left (by omega) now)
  · exact r.follow_deadline_le now line

theorem tickIn_eq (hdeadline : r.deadline ≤ Time.latest)
    (hfits : now + 2 * r.bitPeriod ≤ Time.latest) (line : Bool) :
    r.tickIn o now line = some (r.tick now line) := by
  have hnext : (r.tick now line).1.deadline ≤ Time.latest :=
    (r.tick_deadline_le now line).elim (Nat.le_trans · hdeadline) (Nat.le_trans · hfits)
  simp only [tickIn, Overflow.word?_of_le hnext, Option.bind_eq_bind, Option.bind_some,
    Option.pure_def]

theorem word_of_tickIn (h : r.tickIn o now line = some (r', received)) :
    r'.deadline ≤ Time.latest ∧ r'.bitPeriod = r.bitPeriod := by
  simp only [tickIn, Option.bind_eq_bind, Option.bind_eq_some_iff, Option.pure_def] at h
  obtain ⟨deadline, hdeadline, h⟩ := h
  obtain ⟨rfl, -⟩ := Prod.mk.inj (Option.some.inj h)
  exact ⟨Overflow.le_of_word? hdeadline, r.tick_bitPeriod now line⟩

theorem tickIn_wraps (r : Receiver) (now : Time) (line : Bool) :
    ∃ next, r.tickIn .wraps now line = some next := by
  obtain ⟨deadline, hdeadline⟩ := Overflow.word?_wraps (r.tick now line).1.deadline
  simp only [tickIn, hdeadline, Option.bind_eq_bind, Option.bind_some, Option.pure_def]
  exact ⟨_, rfl⟩

end Receiver

/-! ### The link -/

namespace Link

variable {M : Type} [HardwareModel M] {p p' : Link} {period : Nat} {f g : Fixture M}

/-- Both ends of a link have the same bit length, and their deadlines are words. -/
structure InWords (period : Nat) (p : Link) : Prop where
  transmitter : p.transmitter.deadline ≤ Time.latest ∧ p.transmitter.bitPeriod = period
  receiver : p.receiver.deadline ≤ Time.latest ∧ p.receiver.bitPeriod = period

theorem inWords_start (baudRate : UInt32) (script : List UInt8) :
    (start baudRate script).InWords (bitPeriod baudRate) :=
  ⟨⟨Nat.zero_le _, rfl⟩, ⟨Nat.zero_le _, rfl⟩⟩

theorem InWords.tickIn_eq (h : p.InWords period) (hfits : now + 2 * period ≤ Time.latest)
    (f : Fixture M) : p.tickIn o now f = some (p.tick now f) := by
  obtain ⟨⟨hsend, hsent⟩, hreceive, hreceived⟩ := h
  have hone : now + p.transmitter.bitPeriod ≤ Time.latest := by
    rw [hsent]
    exact Nat.le_trans (Nat.add_le_add_left (by omega) now) hfits
  have htwo : now + 2 * p.receiver.bitPeriod ≤ Time.latest := by rwa [hreceived]
  simp only [tickIn, Link.tick, Transmitter.tickIn_eq hsend hone, Receiver.tickIn_eq hreceive htwo,
    Option.bind_eq_bind, Option.bind_some, Option.pure_def]

/-- A tick drives the model's input line. -/
theorem InWords.tickIn (h : p.InWords period) (htick : p.tickIn o now f = some (p', g)) :
    p'.InWords period ∧ Fixture.DrivesOnly (· = .uartRx) f g := by
  simp only [Link.tickIn, Option.bind_eq_bind, Option.bind_eq_some_iff, Option.pure_def,
    Option.some.injEq, Prod.mk.injEq] at htick
  obtain ⟨⟨t, sent⟩, hsend, ⟨r, received⟩, hreceive, rfl, rfl⟩ := htick
  obtain ⟨hsend, hsent⟩ := Transmitter.word_of_tickIn hsend
  obtain ⟨hreceive, hreceived⟩ := Receiver.word_of_tickIn hreceive
  exact ⟨⟨⟨hsend, hsent.trans h.transmitter.2⟩, hreceive, hreceived.trans h.receiver.2⟩,
    .drive .refl _ _ rfl⟩

theorem tickIn_wraps (p : Link) (now : Time) (f : Fixture M) :
    ∃ next, p.tickIn .wraps now f = some next := by
  obtain ⟨⟨t, sent⟩, hsend⟩ := p.transmitter.tickIn_wraps now
  obtain ⟨r, hreceive⟩ := p.receiver.tickIn_wraps now ((f.drive .uartRx t.level).read .uartTx).isHigh
  simp only [Link.tickIn, hsend, hreceive, Option.bind_eq_bind, Option.bind_some, Option.pure_def]
  exact ⟨_, rfl⟩

end Link

end Serial

end PinBench
