import PinBench.Proofs.Pins.Access

/-! Fields of a signal.  A call that replaces a field of a role replaces those of its bits that the
signal has, and no other bit of any signal (`getLsbD_read_writeField`, `word_writeField_of_ne`).  So
calls on fields without a common bit can be exchanged, and a field gives back what was written to it
until a call covers one of its bits, by this role or by another one on the same signal. -/

namespace PinBench

/-- The call replaces bit `j`, if the signal behind its role has it. -/
def Access.Covers : Access → Nat → Prop
  | .write _ _, _ => True
  | .writeField _ lsb width _, j => lsb ≤ j ∧ j < lsb + width

namespace Word

/-- A field is the number that its bits make. -/
theorem field_eq_of_bits {w value : Word} {lsb width : Nat}
    (h : ∀ j < width, w.getLsbD (lsb + j) = value.getLsbD j) :
    (w.toNat >>> lsb) % 2 ^ width = value.toNat % 2 ^ width := by
  refine Nat.eq_of_testBit_eq fun j => ?_
  rw [Nat.testBit_mod_two_pow, Nat.testBit_mod_two_pow, Nat.testBit_shiftRight,
    BitVec.testBit_toNat, BitVec.testBit_toNat]
  by_cases hj : j < width
  · rw [h j hj]
  · simp [hj]

end Word

namespace Fixture

variable {M : Type} [HardwareModel M] {a : Assignment} {f g : Fixture M} {role : Role}
  {id : SignalId} {signal : Signal} {lsb width : Nat} {value : Word}

/-! ### Calls that do nothing -/

theorem write_of_not_reaches (h : ∀ id, ¬f.Reaches role id) (value : Word) :
    f.write role value = f := by
  rcases write_cases f role value with hsame | ⟨b, hreaches, -⟩
  · exact hsame
  · exact absurd hreaches (h b.signal)

theorem writeField_of_not_reaches (h : ∀ id, ¬f.Reaches role id) (lsb width : Nat) (value : Word) :
    f.writeField role lsb width value = f := by
  unfold writeField
  split
  · rfl
  · exact write_of_not_reaches h _

theorem writeField_of_le (h : 64 ≤ lsb) (f : Fixture M) (role : Role) (width : Nat) (value : Word) :
    f.writeField role lsb width value = f :=
  if_pos h

omit [HardwareModel M] in
theorem not_reaches_of_not_bound (h : f.bound role = false) (id : SignalId) :
    ¬f.Reaches role id := by
  rintro ⟨-, b, hb, -⟩
  simp [bound, hb] at h

/-! ### The word of a signal -/

theorem writeField_drivesOnly (f : Fixture M) (role : Role) (lsb width : Nat) (value : Word) :
    DrivesOnly (· = role) f (f.writeField role lsb width value) :=
  .writeField .refl role lsb width value rfl

/-- A role reaches one signal. -/
theorem OnRow.eq_of_reaches (h : f.OnRow role id signal) {other : SignalId}
    (hreaches : f.Reaches role other) : other = id := by
  obtain ⟨-, b, hb, rfl⟩ := hreaches
  obtain rfl := Option.some.inj (h.binding.symm.trans hb)
  rfl

theorem OnRow.getLsbD_read (h : f.OnRow role id signal) (j : Nat) :
    (f.read role).getLsbD j = (decide (j < signal.width) && (f.word id).getLsbD j) := by
  simp only [read, h.binding]
  exact Word.getLsbD_and_lowMask (f.word id) signal.width j

variable [StoresWrites M] {roles : Role → Prop}

theorem OnRow.of_drives (h : f.OnRow role id signal) (hfg : DrivesOnly roles f g) :
    g.OnRow role id signal where
  row := by rw [hfg.signals, h.row]
  direction := h.direction
  binding := by rw [hfg.binding?, h.binding]

theorem OnRow.word_write (h : f.OnRow role id signal) (hdir : role.direction = .hostDriven)
    (value : Word) : (f.write role value).word id = value &&& signal.mask := by
  rw [word, write_model hdir h.binding]
  exact StoresWrites.read_write_self f.model id _ (List.getElem?_eq_some_iff.mp h.row).1

/-- Bit `j` of a signal after a field of it was replaced: no bit past its width is left. -/
theorem OnRow.getLsbD_word_writeField (h : f.OnRow role id signal)
    (hdir : role.direction = .hostDriven) (hlsb : lsb < 64) (width : Nat) (value : Word) (j : Nat) :
    ((f.writeField role lsb width value).word id).getLsbD j =
      (decide (j < signal.width) &&
        if lsb ≤ j ∧ j < lsb + width ∧ j < 64 then value.getLsbD (j - lsb)
        else (f.word id).getLsbD j) := by
  rw [writeField, if_neg (Nat.not_le_of_lt hlsb), h.word_write hdir, Signal.mask,
    Word.getLsbD_and_lowMask, Word.getLsbD_setField, h.getLsbD_read]
  by_cases hj : j < signal.width
  · simp [hj]
  · simp [hj]

theorem OnRow.word_writeField_of_ne (h : f.OnRow role id signal) {other : SignalId}
    (hne : other ≠ id) : (f.writeField role lsb width value).word other = f.word other := by
  refine (writeField_drivesOnly f role lsb width value).word_of_not_reaches ?_
  rintro role rfl hreaches
  exact hne (h.eq_of_reaches hreaches)

/-! ### Fields of a role -/

/-- Bit `j` of a role after a field of it was replaced. -/
theorem OnRow.getLsbD_read_writeField (h : f.OnRow role id signal)
    (hdir : role.direction = .hostDriven) (hwidth : signal.width ≤ 64) (lsb width : Nat)
    (value : Word) (j : Nat) :
    ((f.writeField role lsb width value).read role).getLsbD j =
      if lsb ≤ j ∧ j < lsb + width ∧ j < signal.width then value.getLsbD (j - lsb)
      else (f.read role).getLsbD j := by
  by_cases hlsb : lsb < 64
  · rw [(h.of_drives (writeField_drivesOnly f role lsb width value)).getLsbD_read,
      h.getLsbD_word_writeField hdir hlsb, h.getLsbD_read]
    by_cases hj : j < signal.width
    · have hj64 : j < 64 := Nat.lt_of_lt_of_le hj hwidth
      simp [hj, hj64]
    · simp [hj]
  · rw [writeField_of_le (Nat.le_of_not_lt hlsb), if_neg]
    omega

/-- A call that does not cover a bit of a signal leaves it as it is. -/
theorem BoundBy.getLsbD_read_access (hbound : f.BoundBy a) (h : f.OnRow role id signal)
    {call : Access} {j : Nat} (hspare : f.Reaches call.role id → ¬call.Covers j) :
    ((f.access call).read role).getLsbD j = (f.read role).getLsbD j := by
  have hdrives := access_drivesOnly f call
  rw [(h.of_drives hdrives).getLsbD_read, h.getLsbD_read]
  by_cases hreaches : f.Reaches call.role id
  · cases call with
    | write other value => exact absurd trivial (hspare hreaches)
    | writeField other lsb width value =>
      -- the other role is on the same row, so its field is cut to the same width
      have hother : f.OnRow other id signal := (hbound.onRow_of_reaches hreaches h.row).1
      have hdir : other.direction = .hostDriven := hreaches.1
      have hcovers : ¬(lsb ≤ j ∧ j < lsb + width) := hspare hreaches
      by_cases hlsb : lsb < 64
      · rw [access, hother.getLsbD_word_writeField hdir hlsb, if_neg (by omega)]
        simp
      · rw [access, writeField_of_le (Nat.le_of_not_lt hlsb)]
  · rw [hdrives.word_of_not_reaches]
    rintro _ rfl
    exact hreaches

theorem BoundBy.getLsbD_read_accesses (hbound : f.BoundBy a) (h : f.OnRow role id signal)
    {calls : List Access} {j : Nat}
    (hspare : ∀ call ∈ calls, f.Reaches call.role id → ¬call.Covers j) :
    ((f.accesses calls).read role).getLsbD j = (f.read role).getLsbD j := by
  induction calls generalizing f with
  | nil => rfl
  | cons call calls ih =>
    have hdrives := access_drivesOnly f call
    rw [List.forall_mem_cons] at hspare
    rw [← hbound.getLsbD_read_access h hspare.1]
    refine ih (hbound.of_drives hdrives) (h.of_drives hdrives) fun later hlater hreaches => ?_
    exact hspare.2 later hlater (hdrives.reaches_iff.mp hreaches)

/-- A field inside the signal gives back what was written to it, as long as no call covers one of
its bits. -/
theorem BoundBy.field_accesses (hbound : f.BoundBy a) (h : f.OnRow role id signal)
    (hdir : role.direction = .hostDriven) (hwidth : signal.width ≤ 64)
    (hinside : lsb + width ≤ signal.width) (value : Word) {calls : List Access}
    (hspare : ∀ call ∈ calls, f.Reaches call.role id →
      ∀ j, lsb ≤ j → j < lsb + width → ¬call.Covers j) :
    ((((f.writeField role lsb width value).accesses calls).read role).toNat >>> lsb) % 2 ^ width =
      value.toNat % 2 ^ width := by
  have hdrives := writeField_drivesOnly f role lsb width value
  refine Word.field_eq_of_bits fun j hj => ?_
  rw [(hbound.of_drives hdrives).getLsbD_read_accesses (h.of_drives hdrives),
    h.getLsbD_read_writeField hdir hwidth, if_pos (by omega), Nat.add_sub_cancel_left]
  intro call hcall hreaches
  exact hspare call hcall (hdrives.reaches_iff.mp hreaches) _ (by omega) (by omega)

/-- Fields without a common bit can be replaced in either order. -/
theorem BoundBy.word_writeField_comm (hbound : f.BoundBy a) (role : Role)
    {lsb₁ width₁ lsb₂ width₂ : Nat}
    (hapart : ∀ j, ¬((lsb₁ ≤ j ∧ j < lsb₁ + width₁) ∧ (lsb₂ ≤ j ∧ j < lsb₂ + width₂)))
    (value₁ value₂ : Word) (id : SignalId) :
    ((f.writeField role lsb₁ width₁ value₁).writeField role lsb₂ width₂ value₂).word id =
      ((f.writeField role lsb₂ width₂ value₂).writeField role lsb₁ width₁ value₁).word id := by
  -- a field past the word is no field: then only one call is left on either side
  by_cases hlsb₁ : 64 ≤ lsb₁
  · rw [writeField_of_le hlsb₁, writeField_of_le hlsb₁]
  by_cases hlsb₂ : 64 ≤ lsb₂
  · rw [writeField_of_le hlsb₂, writeField_of_le hlsb₂]
  by_cases hreached : ∃ other, f.Reaches role other
  · obtain ⟨_, hdir, b, hb, rfl⟩ := hreached
    obtain ⟨signal, h⟩ := hbound.onRow hb
    have h₁ := h.of_drives (writeField_drivesOnly f role lsb₁ width₁ value₁)
    have h₂ := h.of_drives (writeField_drivesOnly f role lsb₂ width₂ value₂)
    by_cases hid : id = b.signal
    · subst hid
      refine BitVec.eq_of_getLsbD_eq fun j hj => ?_
      rw [h₁.getLsbD_word_writeField hdir (Nat.lt_of_not_le hlsb₂),
        h.getLsbD_word_writeField hdir (Nat.lt_of_not_le hlsb₁),
        h₂.getLsbD_word_writeField hdir (Nat.lt_of_not_le hlsb₁),
        h.getLsbD_word_writeField hdir (Nat.lt_of_not_le hlsb₂)]
      by_cases hin : lsb₁ ≤ j ∧ j < lsb₁ + width₁ ∧ j < 64
      · have hout : ¬(lsb₂ ≤ j ∧ j < lsb₂ + width₂ ∧ j < 64) := by
          have hbit := hapart j
          omega
        simp only [if_pos hin, if_neg hout, ← Bool.and_assoc, Bool.and_self]
      · simp only [if_neg hin]
        split
        · rw [← Bool.and_assoc, Bool.and_self]
        · rw [← Bool.and_assoc, Bool.and_self]
    · rw [h₁.word_writeField_of_ne hid, h.word_writeField_of_ne hid, h₂.word_writeField_of_ne hid,
        h.word_writeField_of_ne hid]
  · have hnone : ∀ other, ¬f.Reaches role other := fun other h => hreached ⟨other, h⟩
    rw [writeField_of_not_reaches hnone, writeField_of_not_reaches hnone,
      writeField_of_not_reaches hnone]

omit [StoresWrites M] in
/-- What the roles show is told by the bindings and the words. -/
theorem read_congr (hbindings : g.bindings = f.bindings) (hword : ∀ id, g.word id = f.word id)
    (role : Role) : g.read role = f.read role := by
  have hb : g.binding? role = f.binding? role := by rw [binding?, binding?, hbindings]
  unfold read
  rw [hb]
  cases f.binding? role with
  | none => rfl
  | some b => exact congrArg (· &&& b.mask) (hword b.signal)

/-- A call that replaces a field of a role, on a fixture bound by an assignment over a model in
whatever state.  It does nothing if the role is not served or the field begins past the word.  Two
calls on fields without a common bit can be exchanged.  On a role that the bench drives, the bits
of the field that the signal has become the low bits of the value, in order, and the other bits and
the other signals stay.  A field inside the signal then gives back the value, cut to the width of
the field, whatever further calls write to fields without a bit in it, or to other signals. -/
theorem fields_exact (hbound : f.BoundBy a) (role : Role) :
    (∀ lsb width value, f.bound role = false ∨ 64 ≤ lsb →
      f.writeField role lsb width value = f) ∧
    (∀ lsb₁ width₁ value₁ lsb₂ width₂ value₂,
      (∀ j, ¬((lsb₁ ≤ j ∧ j < lsb₁ + width₁) ∧ (lsb₂ ≤ j ∧ j < lsb₂ + width₂))) →
      let g := (f.writeField role lsb₁ width₁ value₁).writeField role lsb₂ width₂ value₂
      let h := (f.writeField role lsb₂ width₂ value₂).writeField role lsb₁ width₁ value₁
      (∀ id, g.word id = h.word id) ∧ ∀ other, g.read other = h.read other) ∧
    ∀ b signal, f.binding? role = some b →
      (HardwareModel.signals f.model)[b.signal]? = some signal →
      role.direction = .hostDriven → signal.width ≤ 64 →
      ∀ lsb width value,
        (∀ j, ((f.writeField role lsb width value).read role).getLsbD j =
          if lsb ≤ j ∧ j < lsb + width ∧ j < signal.width then value.getLsbD (j - lsb)
          else (f.read role).getLsbD j) ∧
        (∀ id, id ≠ b.signal → (f.writeField role lsb width value).word id = f.word id) ∧
        (lsb + width ≤ signal.width → ∀ calls : List Access,
          (∀ call ∈ calls, f.Reaches call.role b.signal →
            ∀ j, lsb ≤ j → j < lsb + width → ¬call.Covers j) →
          ((((f.writeField role lsb width value).accesses calls).read role).toNat >>> lsb) %
              2 ^ width =
            value.toNat % 2 ^ width) := by
  refine ⟨?_, ?_, ?_⟩
  · rintro lsb width value (hunbound | hlsb)
    · exact writeField_of_not_reaches (not_reaches_of_not_bound hunbound) lsb width value
    · exact writeField_of_le hlsb f role width value
  · intro lsb₁ width₁ value₁ lsb₂ width₂ value₂ hapart
    have hword := hbound.word_writeField_comm role hapart value₁ value₂
    refine ⟨hword, read_congr ?_ hword⟩
    have hbindings (lsb₁ width₁ value₁ lsb₂ width₂ value₂) :
        ((f.writeField role lsb₁ width₁ value₁).writeField role lsb₂ width₂ value₂).bindings =
          f.bindings :=
      ((writeField_drivesOnly f role lsb₁ width₁ value₁).trans
        (writeField_drivesOnly _ role lsb₂ width₂ value₂)).bindings
    rw [hbindings, hbindings]
  · intro b signal hb hrow hdir hwidth lsb width value
    have h : f.OnRow role b.signal signal :=
      (hbound.onRow_of_reaches ⟨hdir, b, hb, rfl⟩ hrow).1
    exact ⟨h.getLsbD_read_writeField hdir hwidth lsb width value,
      fun id hne => h.word_writeField_of_ne hne,
      fun hinside calls hspare => hbound.field_accesses h hdir hwidth hinside value hspare⟩

/-- A bus of eight bits behind two roles: a field of two bits written by the one gives back its
value after the other has written the four bits below it and a field that hangs over the end. -/
theorem fields_exact_bus :
    ∃ f, bind (Model.WireTable.plain twice) crossed = .ok f ∧
      f.writeField .jtagTms 0 1 1 = f ∧
      (∀ id, ((f.writeField .gpioIn 4 2 7).writeField .gpioIn 6 40 3).word id =
        ((f.writeField .gpioIn 6 40 3).writeField .gpioIn 4 2 7).word id) ∧
      ((f.writeField .gpioIn 4 2 7).read .gpioIn).getLsbD 5 = true ∧
      ((((f.writeField .gpioIn 4 2 7).accesses
        [.writeField .uartRx 0 4 9, .writeField .gpioIn 6 40 3, .write .gpioOut 1]).read
          .gpioIn).toNat >>> 4) % 2 ^ 2 = 3 := by
  have hexact (f) (hbind : bind (Model.WireTable.plain twice) crossed = .ok f) :=
    fields_exact (boundBy_of_bind hbind)
  refine ⟨_, rfl, (hexact _ rfl .jtagTms).1 0 1 1 (.inl rfl),
    ((hexact _ rfl .gpioIn).2.1 4 2 7 6 40 3 (by omega)).1, ?_, ?_⟩
  · rw [((hexact _ rfl .gpioIn).2.2 ⟨1, 255⟩ (.input "bus" 8) rfl rfl rfl (by decide) 4 2 7).1]
    rfl
  · refine ((hexact _ rfl .gpioIn).2.2 ⟨1, 255⟩ (.input "bus" 8) rfl rfl rfl (by decide)
      4 2 7).2.2 (by decide) _ ?_
    simp only [List.forall_mem_cons, Access.Covers]
    refine ⟨fun _ j => by omega, fun _ j => by omega, ?_, by simp⟩
    rintro ⟨hdir, -⟩
    cases hdir

end Fixture

end PinBench
