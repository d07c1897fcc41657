import PinBench.Proofs.Pins.Driving

/-! Signals that keep what is written to them.  A model `Keeps` a signal if, whatever is done to it,
a read of the signal gives what the last write put there.  A role on such a signal, with no other
role beside it, is a `Port`: its word changes only when the bench writes the role. -/

namespace PinBench

variable {M : Type} [HardwareModel M] {m k : M} {id : SignalId} {mask : Word}

namespace HardwareModel

/-- What a model can become by writes and evaluations. -/
inductive Becomes (m : M) : M → Prop where
  | refl : Becomes m m
  | write {k : M} (h : Becomes m k) (id : SignalId) (value : Word) : Becomes m (write k id value)
  | eval {k : M} (h : Becomes m k) : Becomes m (eval k)

theorem Becomes.trans {l : M} (hmk : Becomes m k) (hkl : Becomes k l) : Becomes m l := by
  induction hkl with
  | refl => exact hmk
  | write _ id value ih => exact .write ih id value
  | eval _ ih => exact .eval ih

/-- The signal `id`, which has the bits in `mask`, gives back what is written to it. -/
structure Keeps (m : M) (id : SignalId) (mask : Word) : Prop where
  written : ∀ k, Becomes m k → ∀ value,
    HardwareModel.read (HardwareModel.write k id (value &&& mask)) id = value &&& mask
  other : ∀ k, Becomes m k → ∀ other value, other ≠ id →
    HardwareModel.read (HardwareModel.write k other value) id = HardwareModel.read k id
  eval : ∀ k, Becomes m k → HardwareModel.read (HardwareModel.eval k) id = HardwareModel.read k id

theorem Keeps.becomes (h : Keeps m id mask) (hmk : Becomes m k) : Keeps k id mask where
  written l hl := h.written l (hmk.trans hl)
  other l hl := h.other l (hmk.trans hl)
  eval l hl := h.eval l (hmk.trans hl)

end HardwareModel

namespace Fixture

variable {roles : Role → Prop} {role : Role} {f g : Fixture M}

theorem DrivesOnly.becomes (hfg : DrivesOnly roles f g) :
    HardwareModel.Becomes f.model g.model := by
  induction hfg with
  | refl => exact .refl
  | @write g role value _ _ ih =>
    rcases write_cases g role value with hsame | ⟨b, -, -, hmodel⟩
    · rwa [hsame]
    · rw [hmodel]
      exact .write ih _ _

/-- The word on the signal of a role. -/
def word (f : Fixture M) (id : SignalId) : Word := HardwareModel.read f.model id

/-- A role with a signal of its own, which keeps what is written to it. -/
structure Port (f : Fixture M) (role : Role) (id : SignalId) (mask : Word) : Prop where
  binding : f.binding? role = some ⟨id, mask⟩
  alone : f.Alone role id
  keeps : HardwareModel.Keeps f.model id mask

namespace Port

theorem of_drives (h : f.Port role id mask) (hfg : DrivesOnly roles f g) : g.Port role id mask where
  binding := (hfg.binding? role).trans h.binding
  alone := hfg.alone h.alone
  keeps := h.keeps.becomes hfg.becomes

theorem eval (h : f.Port role id mask) : f.eval.Port role id mask where
  binding := h.binding
  alone := h.alone
  keeps := h.keeps.becomes (.eval .refl)

theorem word_eval (h : f.Port role id mask) : f.eval.word id = f.word id := h.keeps.eval _ .refl

/-- Writes to other roles leave the word alone. -/
theorem word_of_drives (h : f.Port role id mask) (hfg : DrivesOnly roles f g)
    (hroles : ¬roles role) : g.word id = f.word id := by
  induction hfg with
  | refl => rfl
  | @write g other value hg hother ih =>
    rcases write_cases g other value with hsame | ⟨b, hreaches, hb, hmodel⟩
    · rw [hsame, ih]
    · have hne : other ≠ role := by
        rintro rfl
        exact hroles hother
      have hg' := h.of_drives hg
      rw [← ih, word, hmodel]
      exact hg'.keeps.other _ .refl b.signal _ (hg'.alone other hne hreaches.1 b hb)

theorem word_write (h : f.Port role id mask) (hdir : role.direction = .hostDriven) (value : Word) :
    (f.write role value).word id = value &&& mask := by
  rw [word, write_model hdir h.binding]
  exact h.keeps.written _ .refl value

theorem word_writeField (h : f.Port role id mask) (hdir : role.direction = .hostDriven) {lsb : Nat}
    (hlsb : lsb < 64) (width : Nat) (value : Word) :
    (f.writeField role lsb width value).word id =
      (f.word id &&& mask).setField lsb width value &&& mask := by
  have hread : f.read role = f.word id &&& mask := by simp only [read, h.binding, word]
  rw [writeField, if_neg (Nat.not_le_of_lt hlsb), h.word_write hdir, hread]

end Port

end Fixture

end PinBench
