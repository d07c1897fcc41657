import PinBench.Proofs.Pins.Driving

/-! What binding decides.  A name stands for the first row of the table that has it.  Binding fails
if some role has a name that stands for a row of the wrong direction, and the first such role in the
order decides the error (`bind_eq_error_iff`).  Otherwise a role is served if its name stands for a
row, and by that row (`binding?_eq_some_iff`).  All of this depends on the model by its table alone,
so a bound fixture stays bound while its table is the same (`BoundBy`). -/

namespace PinBench

/-! ### Names in a table -/

/-- A name stands for the row `signal` at place `id`: the first row with that name. -/
structure FirstNamed (table : List Signal) (name : String) (id : SignalId) (signal : Signal) :
    Prop where
  row : table[id]? = some signal
  named : signal.name = name
  first : ∀ i < id, ∀ earlier, table[i]? = some earlier → earlier.name ≠ name

section Names

variable {table : List Signal} {name : String} {id : SignalId} {signal : Signal}

theorem findSignal?_eq_some_iff :
    findSignal? table name = some (id, signal) ↔ FirstNamed table name id signal := by
  simp only [findSignal?, Option.map_eq_some_iff, List.find?_eq_some_iff_getElem, beq_iff_eq,
    List.getElem_zipIdx, Nat.zero_add, List.length_zipIdx]
  constructor
  · rintro ⟨row, ⟨hname, i, hi, rfl, hfirst⟩, hrow⟩
    obtain ⟨rfl, rfl⟩ := Prod.mk.inj hrow
    refine ⟨List.getElem?_eq_getElem hi, hname, fun k hk earlier hearlier => ?_⟩
    obtain ⟨_, rfl⟩ := List.getElem?_eq_some_iff.mp hearlier
    simpa using hfirst k hk
  · rintro ⟨hrow, hname, hfirst⟩
    obtain ⟨hid, rfl⟩ := List.getElem?_eq_some_iff.mp hrow
    refine ⟨(table[id], id), ⟨hname, id, hid, rfl, fun k hk => ?_⟩, rfl⟩
    simpa using hfirst k hk _ (List.getElem?_eq_getElem (Nat.lt_trans hk hid))

theorem findSignal?_eq_none_iff :
    findSignal? table name = none ↔ ∀ signal ∈ table, signal.name ≠ name := by
  simp only [findSignal?, Option.map_eq_none_iff, List.find?_eq_none, beq_iff_eq]
  constructor
  · intro h signal hsignal
    obtain ⟨i, hi, rfl⟩ := List.getElem_of_mem hsignal
    exact h (table[i], i) (List.mk_mem_zipIdx_iff_getElem?.mpr (List.getElem?_eq_getElem hi))
  · rintro h ⟨signal, i⟩ hrow
    exact h signal (List.mem_of_getElem? (List.mk_mem_zipIdx_iff_getElem?.mp hrow))

theorem FirstNamed.unique {id' : SignalId} {signal' : Signal}
    (h : FirstNamed table name id signal) (h' : FirstNamed table name id' signal') :
    id = id' ∧ signal = signal' := by
  rw [← findSignal?_eq_some_iff] at h h'
  exact Prod.mk.inj (Option.some.inj (h.symm.trans h'))

/-- A name stands for a row if and only if it occurs. -/
theorem exists_firstNamed_iff :
    (∃ id signal, FirstNamed table name id signal) ↔ ∃ signal ∈ table, signal.name = name := by
  constructor
  · rintro ⟨id, signal, h⟩
    exact ⟨signal, List.mem_of_getElem? h.row, h.named⟩
  · rintro ⟨signal, hsignal, hname⟩
    cases hfind : findSignal? table name with
    | none => exact absurd hname (findSignal?_eq_none_iff.mp hfind signal hsignal)
    | some row => exact ⟨row.1, row.2, findSignal?_eq_some_iff.mp hfind⟩

end Names

/-! ### One role -/

namespace Assignment

/-- The name of a role stands for a row of the wrong direction. -/
def Misdirects (a : Assignment) (table : List Signal) (role : Role) (name : String) : Prop :=
  a.name? role = some name ∧
    ∃ id signal, FirstNamed table name id signal ∧ signal.direction ≠ role.direction

/-- The name of a role stands for the row `signal` at place `id`. -/
def Names (a : Assignment) (table : List Signal) (role : Role) (id : SignalId) (signal : Signal) :
    Prop :=
  ∃ name, a.name? role = some name ∧ FirstNamed table name id signal

variable {a : Assignment} {table : List Signal} {role : Role}

theorem resolve_eq_error_iff {e : PinError} :
    a.resolve table role = .error e ↔
      ∃ name, a.Misdirects table role name ∧ e = .directionMismatch role name := by
  unfold resolve Misdirects
  cases hname : a.name? role with
  | none => simp
  | some name =>
    cases hfind : findSignal? table name with
    | none =>
      have hnone : ∀ id signal, ¬FirstNamed table name id signal := by
        intro id signal h
        rw [findSignal?_eq_some_iff.mpr h] at hfind
        cases hfind
      simp [hfind, hnone]
    | some row =>
      have hfirst := findSignal?_eq_some_iff.mp hfind
      by_cases hdir : row.2.direction = role.direction
      · simp only [hfind, hdir, if_true, reduceCtorEq, false_iff]
        rintro ⟨_, ⟨hsome, id, signal, hrow, hne⟩, -⟩
        obtain rfl := Option.some.inj hsome
        obtain ⟨-, rfl⟩ := hfirst.unique hrow
        exact hne hdir
      · simp only [hfind, hdir, if_false, Except.error.injEq]
        constructor
        · rintro rfl
          exact ⟨name, ⟨rfl, row.1, row.2, hfirst, hdir⟩, rfl⟩
        · rintro ⟨_, ⟨hsome, -⟩, rfl⟩
          rw [Option.some.inj hsome]

/-- A role that is served by a row is served by the row of its name, which has its direction. -/
theorem resolve_eq_some_iff {b : Binding} :
    a.resolve table role = .ok (some b) ↔
      ∃ signal, a.Names table role b.signal signal ∧ signal.direction = role.direction ∧
        b.mask = signal.mask := by
  unfold resolve Names
  cases hname : a.name? role with
  | none => simp
  | some name =>
    simp only [Option.some.injEq, exists_eq_left', ← findSignal?_eq_some_iff]
    cases hfind : findSignal? table name with
    | none => simp
    | some row =>
      obtain ⟨id, signal⟩ := row
      obtain ⟨bid, mask⟩ := b
      by_cases hdir : signal.direction = role.direction
      · simp only [hdir, if_true, Except.ok.injEq, Option.some.injEq, Binding.mk.injEq,
          Prod.mk.injEq]
        constructor
        · rintro ⟨rfl, rfl⟩
          exact ⟨signal, ⟨rfl, rfl⟩, hdir, rfl⟩
        · rintro ⟨_, ⟨rfl, rfl⟩, -, hmask⟩
          exact ⟨rfl, hmask.symm⟩
      · simp only [hdir, if_false, reduceCtorEq, Option.some.injEq, Prod.mk.injEq, false_iff]
        rintro ⟨_, ⟨-, rfl⟩, hdir', -⟩
        exact hdir hdir'

end Assignment

/-! ### All of them -/

section Traversal

variable {α β ε : Type} {g : α → Except ε β} {xs : List α}

theorem mapM_eq_ok {ys : List β} (h : xs.mapM g = .ok ys) {i : Nat} {x : α}
    (hx : xs[i]? = some x) : ∃ y, ys[i]? = some y ∧ g x = .ok y := by
  induction xs generalizing ys i with
  | nil => cases hx
  | cons head tail ih =>
    rw [List.mapM_cons] at h
    cases hhead : g head with
    | error e => simp [hhead, bind, Except.bind] at h
    | ok y =>
      cases htail : tail.mapM g with
      | error e => simp [hhead, htail, bind, Except.bind] at h
      | ok rest =>
        obtain rfl : y :: rest = ys := by
          simpa [hhead, htail, bind, Except.bind, pure, Except.pure] using h
        cases i with
        | zero =>
          obtain rfl : head = x := by simpa using hx
          exact ⟨y, rfl, hhead⟩
        | succ i => exact ih htail hx

/-- The first element in error decides the error. -/
theorem mapM_eq_error_iff {e : ε} :
    xs.mapM g = .error e ↔
      ∃ (i : Nat) (x : α), xs[i]? = some x ∧ g x = .error e ∧
        ∀ k < i, ∀ y, xs[k]? = some y → ∀ e', g y ≠ .error e' := by
  induction xs with
  | nil => simp [pure, Except.pure]
  | cons head tail ih =>
    rw [List.mapM_cons]
    cases hhead : g head with
    | error e' =>
      simp only [bind, Except.bind, Except.error.injEq]
      constructor
      · rintro rfl
        exact ⟨0, head, rfl, hhead, by simp⟩
      · rintro ⟨i, x, hx, hex, hbefore⟩
        cases i with
        | zero =>
          obtain rfl : head = x := by simpa using hx
          exact Except.error.inj (hhead.symm.trans hex)
        | succ i => exact absurd hhead (hbefore 0 (Nat.succ_pos i) head rfl e')
    | ok y =>
      -- the first element counts in no index, so those of the rest are one lower
      have htail : (tail.mapM g >>= fun rest => Except.ok (y :: rest)) = .error e ↔
          tail.mapM g = .error e := by
        cases tail.mapM g <;> simp [bind, Except.bind]
      refine htail.trans (ih.trans ⟨?_, ?_⟩)
      · rintro ⟨i, x, hx, hex, hbefore⟩
        refine ⟨i + 1, x, hx, hex, fun k hk z hz => ?_⟩
        cases k with
        | zero =>
          obtain rfl : head = z := by simpa using hz
          simp [hhead]
        | succ k => exact hbefore k (Nat.lt_of_succ_lt_succ hk) z hz
      · rintro ⟨i, x, hx, hex, hbefore⟩
        cases i with
        | zero =>
          obtain rfl : head = x := by simpa using hx
          simp [hhead] at hex
        | succ i =>
          exact ⟨i, x, hx, hex, fun k hk z hz => hbefore (k + 1) (Nat.succ_lt_succ hk) z hz⟩

end Traversal

theorem Role.getElem?_all {i : Nat} {role : Role} :
    Role.all[i]? = some role ↔ i = role.index.val := by
  constructor
  · intro h
    obtain ⟨hi, rfl⟩ := List.getElem?_eq_some_iff.mp h
    have hall : ∀ k, k.val = (Role.all.get k).index.val := by decide
    exact hall ⟨i, hi⟩
  · rintro rfl
    exact Role.all_index role

namespace Fixture

variable {M : Type} [HardwareModel M] {model : M} {a : Assignment} {f : Fixture M}

theorem bind_eq_ok_iff :
    bind model a = .ok f ↔
      ∃ bindings, Role.all.mapM (a.resolve (HardwareModel.signals model)) = .ok bindings ∧
        f = ⟨model, Vector.ofFn fun i => (bindings[i.val]?).join⟩ := by
  unfold bind
  cases Role.all.mapM (a.resolve (HardwareModel.signals model)) with
  | error e => simp [Bind.bind, Except.bind]
  | ok bindings =>
    simp only [Bind.bind, Except.bind, pure, Except.pure, Except.ok.injEq, exists_eq_left']
    exact eq_comm

theorem bind_eq_error_iff {e : PinError} :
    bind model a = .error e ↔
      ∃ role name, a.Misdirects (HardwareModel.signals model) role name ∧
        (∀ earlier, earlier.index < role.index →
          ∀ n, ¬a.Misdirects (HardwareModel.signals model) earlier n) ∧
        e = .directionMismatch role name := by
  have hmap : bind model a = .error e ↔
      Role.all.mapM (a.resolve (HardwareModel.signals model)) = .error e := by
    unfold bind
    cases Role.all.mapM (a.resolve (HardwareModel.signals model)) <;>
      simp [Bind.bind, Except.bind, pure, Except.pure]
  rw [hmap, mapM_eq_error_iff]
  simp only [Role.getElem?_all, Assignment.resolve_eq_error_iff]
  constructor
  · rintro ⟨_, role, rfl, ⟨name, hname, rfl⟩, hbefore⟩
    refine ⟨role, name, hname, fun earlier hearlier n hn => ?_, rfl⟩
    exact hbefore _ hearlier earlier rfl _ (Assignment.resolve_eq_error_iff.mpr ⟨n, hn, rfl⟩)
  · rintro ⟨role, name, hname, hbefore, rfl⟩
    refine ⟨_, role, rfl, ⟨name, hname, rfl⟩, ?_⟩
    rintro _ hk earlier rfl e he
    obtain ⟨n, hn, -⟩ := Assignment.resolve_eq_error_iff.mp he
    exact hbefore earlier hk n hn

theorem model_of_bind (hbind : bind model a = .ok f) : f.model = model := by
  obtain ⟨bindings, -, rfl⟩ := bind_eq_ok_iff.mp hbind
  rfl

/-- What an assignment does with a role is what its fixture serves the role by. -/
theorem resolve_of_bind (hbind : bind model a = .ok f) (role : Role) :
    a.resolve (HardwareModel.signals model) role = .ok (f.binding? role) := by
  obtain ⟨bindings, hall, rfl⟩ := bind_eq_ok_iff.mp hbind
  obtain ⟨b, hb, hresolve⟩ := mapM_eq_ok hall (Role.all_index role)
  simp [hresolve, binding?, hb]

theorem not_misdirects_of_bind (hbind : bind model a = .ok f) (role : Role) (name : String) :
    ¬a.Misdirects (HardwareModel.signals model) role name := by
  intro h
  have herror := Assignment.resolve_eq_error_iff.mpr ⟨name, h, rfl⟩
  rw [resolve_of_bind hbind role] at herror
  cases herror

/-- Binding fails if and only if some role is misdirected. -/
theorem exists_bind_eq_error_iff :
    (∃ e, bind model a = .error e) ↔
      ∃ role name, a.Misdirects (HardwareModel.signals model) role name := by
  constructor
  · rintro ⟨e, he⟩
    obtain ⟨role, name, h, -⟩ := bind_eq_error_iff.mp he
    exact ⟨role, name, h⟩
  · rintro ⟨role, name, h⟩
    cases hbind : bind model a with
    | error e => exact ⟨e, rfl⟩
    | ok f => exact absurd h (not_misdirects_of_bind hbind role name)

/-- The row of a role's name has the role's direction. -/
theorem direction_of_bind (hbind : bind model a = .ok f) {role : Role} {id : SignalId}
    {signal : Signal} (h : a.Names (HardwareModel.signals model) role id signal) :
    signal.direction = role.direction := by
  obtain ⟨name, hname, hfirst⟩ := h
  by_cases hdir : signal.direction = role.direction
  · exact hdir
  · exact absurd ⟨hname, id, signal, hfirst, hdir⟩ (not_misdirects_of_bind hbind role name)

/-- A role is served by the row of its name. -/
theorem binding?_eq_some_iff (hbind : bind model a = .ok f) {role : Role} {b : Binding} :
    f.binding? role = some b ↔
      ∃ signal, a.Names (HardwareModel.signals model) role b.signal signal ∧
        b.mask = signal.mask := by
  have hok : f.binding? role = some b ↔
      a.resolve (HardwareModel.signals model) role = .ok (some b) := by
    rw [resolve_of_bind hbind role, Except.ok.injEq]
  rw [hok, Assignment.resolve_eq_some_iff]
  constructor
  · rintro ⟨signal, hnames, -, hmask⟩
    exact ⟨signal, hnames, hmask⟩
  · rintro ⟨signal, hnames, hmask⟩
    exact ⟨signal, hnames, direction_of_bind hbind hnames, hmask⟩

/-- A role is served if its name occurs in the table. -/
theorem bound_iff (hbind : bind model a = .ok f) {role : Role} :
    f.bound role = true ↔
      ∃ name, a.name? role = some name ∧
        ∃ signal ∈ HardwareModel.signals model, signal.name = name := by
  simp only [bound, Option.isSome_iff_exists, binding?_eq_some_iff hbind, Assignment.Names,
    ← exists_firstNamed_iff]
  constructor
  · rintro ⟨b, signal, ⟨name, hname, hfirst⟩, -⟩
    exact ⟨name, hname, b.signal, signal, hfirst⟩
  · rintro ⟨name, hname, id, signal, hfirst⟩
    exact ⟨⟨id, signal.mask⟩, signal, ⟨name, hname, hfirst⟩, rfl⟩

/-! ### Bound fixtures -/

/-- The fixture is what binding its own model makes of it. -/
def BoundBy (f : Fixture M) (a : Assignment) : Prop := bind f.model a = .ok f

/-- The row `signal` at place `id` serves a role. -/
structure OnRow (f : Fixture M) (role : Role) (id : SignalId) (signal : Signal) : Prop where
  row : (HardwareModel.signals f.model)[id]? = some signal
  direction : signal.direction = role.direction
  binding : f.binding? role = some ⟨id, signal.mask⟩

variable {g : Fixture M}

theorem boundBy_of_bind (hbind : bind model a = .ok f) : f.BoundBy a := by
  rw [BoundBy, model_of_bind hbind, hbind]

/-- Binding looks at the table alone. -/
theorem BoundBy.of_signals (h : f.BoundBy a)
    (hsignals : HardwareModel.signals g.model = HardwareModel.signals f.model)
    (hbindings : g.bindings = f.bindings) : g.BoundBy a := by
  obtain ⟨bindings, hall, hf⟩ := bind_eq_ok_iff.mp h
  refine bind_eq_ok_iff.mpr ⟨bindings, by rw [hsignals, hall], ?_⟩
  calc g = ⟨g.model, f.bindings⟩ := by rw [← hbindings]
    _ = _ := congrArg (fun k : Fixture M => Fixture.mk g.model k.bindings) hf

theorem DrivesOnly.signals [StoresWrites M] {roles : Role → Prop} (hfg : DrivesOnly roles f g) :
    HardwareModel.signals g.model = HardwareModel.signals f.model :=
  hfg.view fun _ _ _ b _ m value => StoresWrites.signals_write m b.signal value

theorem BoundBy.of_drives [StoresWrites M] {roles : Role → Prop} (h : f.BoundBy a)
    (hfg : DrivesOnly roles f g) : g.BoundBy a :=
  h.of_signals hfg.signals hfg.bindings

theorem BoundBy.onRow (h : f.BoundBy a) {role : Role} {b : Binding}
    (hb : f.binding? role = some b) : ∃ signal, f.OnRow role b.signal signal := by
  obtain ⟨signal, hnames, hmask⟩ := (binding?_eq_some_iff h).mp hb
  have hrow : (HardwareModel.signals f.model)[b.signal]? = some signal := by
    obtain ⟨_, -, hfirst⟩ := hnames
    exact hfirst.row
  exact ⟨signal, hrow, direction_of_bind h hnames, by rw [hb, ← hmask]⟩

end Fixture

end PinBench
