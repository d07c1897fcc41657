import PinBench.Proofs.Model.Logged

/-! What was written to the signals of roles.  `Drove` says which levels the signal of a role has
been driven to, in order, by the log of a logged model.  If no two roles that the bench drives share
a signal, writes to other roles leave this list alone. -/

namespace PinBench.Fixture

/-- No two roles that the bench drives are on one signal. -/
def Apart {M : Type} (f : Fixture M) : Prop :=
  ∀ role binding, role.direction = .hostDriven → f.binding? role = some binding →
    f.Alone role binding.signal

/-- Drives roles to levels, one after another. -/
def driveAll {M : Type} [HardwareModel M] (f : Fixture M) (script : List (Role × Bool)) :
    Fixture M :=
  script.foldl (fun f s => f.drive s.1 s.2) f

/-- The levels of one role in a script. -/
def levelsFor (role : Role) (script : List (Role × Bool)) : List Bool :=
  (script.filter fun s => s.1 = role).map (·.2)

variable {M : Type} [HardwareModel M] {f g : Fixture (Logged M)} {roles : Role → Prop}
  {role : Role} {levels : List Bool}

/-- The signal of a role, if it is served, has been driven to `levels`. -/
def Drove (f : Fixture (Logged M)) (role : Role) (levels : List Bool) : Prop :=
  ∀ binding, f.binding? role = some binding →
    f.model.writes binding.signal = levels.map fun level => Word.ofLevel level &&& binding.mask

/-- The value that was written last to the signal of a role, if it is served, is `level`. -/
def LastDrove (f : Fixture (Logged M)) (role : Role) (level : Bool) : Prop :=
  ∀ binding, f.binding? role = some binding →
    (f.model.writes binding.signal).getLast? = some (Word.ofLevel level &&& binding.mask)

omit [HardwareModel M] in
theorem Apart.of_bindings {N : Type} {k : Fixture N} {h : Fixture M} (hapart : h.Apart)
    (hk : k.bindings = h.bindings) : k.Apart := by
  intro role binding hdir hb
  rw [binding?, hk] at hb
  exact (hapart role binding hdir hb).of_bindings hk

namespace Drove

omit [HardwareModel M] in
theorem last {level : Bool} (h : f.Drove role (levels ++ [level])) : f.LastDrove role level := by
  intro binding hb
  rw [h binding hb, List.map_append, List.map_singleton, List.getLast?_concat]

omit [HardwareModel M] in
theorem last_singleton {level : Bool} (h : f.Drove role [level]) : f.LastDrove role level :=
  last (show f.Drove role ([] ++ [level]) from h)

theorem frame (h : f.Drove role levels) (hapart : f.Apart) (hdir : role.direction = .hostDriven)
    (hfg : DrivesOnly roles f g) (hroles : ¬roles role) : g.Drove role levels := by
  intro binding hb
  rw [hfg.binding?] at hb
  rw [hfg.view_of_alone (·.writes binding.signal) (hapart role binding hdir hb) hroles
    fun m _ value hne => Logged.writes_write_of_ne m value hne]
  exact h binding hb

theorem drive (h : f.Drove role levels) (hdir : role.direction = .hostDriven) (level : Bool) :
    (f.drive role level).Drove role (levels ++ [level]) := by
  intro binding hb
  rw [Fixture.drive, binding?, write_bindings] at hb
  rw [Fixture.drive, write_model hdir hb, List.map_append, ← h binding hb]
  exact Logged.writes_write_self _ _ _

theorem eval (h : f.Drove role levels) : f.eval.Drove role levels := by
  intro binding hb
  show (HardwareModel.eval f.model).writes binding.signal = _
  rw [Logged.writes_eval]
  exact h binding hb

theorem driveAll (h : f.Drove role levels) (hapart : f.Apart) (hdir : role.direction = .hostDriven)
    (script : List (Role × Bool)) :
    (f.driveAll script).Drove role (levels ++ levelsFor role script) := by
  induction script generalizing f levels with
  | nil =>
    show f.Drove role (levels ++ [])
    rwa [List.append_nil]
  | cons s rest ih =>
    obtain ⟨other, level⟩ := s
    have hdrives : DrivesOnly (· = other) f (f.drive other level) := .drive .refl _ _ rfl
    have hrest : (f.drive other level).Apart := hapart.of_bindings hdrives.bindings
    by_cases hother : other = role
    · subst hother
      have hlevels : levelsFor other ((other, level) :: rest) = level :: levelsFor other rest := by
        simp [levelsFor]
      rw [hlevels, List.append_cons]
      exact ih (h.drive hdir level) hrest
    · have hlevels : levelsFor role ((other, level) :: rest) = levelsFor role rest := by
        simp [levelsFor, hother]
      rw [hlevels]
      exact ih (h.frame hapart hdir hdrives (Ne.symm hother)) hrest

end Drove

omit [HardwareModel M] in
theorem drove_logged (f : Fixture M) (role : Role) : f.logged.Drove role [] := fun _ _ => rfl

end PinBench.Fixture
