import PinBench.Proofs.Wave.Declared
import PinBench.Wave.Recorder

/-! How a header nests.  A walk through a header keeps the scopes that are open on a stack, and so
finds out where each variable stands.  What it finds is given by two recursions that follow the one
of `declare`: `scopesIn` for the scopes that it sees opened, and `entriesIn` for the variables.
`header_nests` says of every header that it closes what it opens, that each scope is opened once and
holds a variable, and that every variable stands where the name of its signal says, with the number
under which the recorder knows the signal. -/

namespace PinBench.Wave

/-- A variable as a header declares it: the scopes around it, outermost first, its name, its width
and its number. -/
structure Variable where
  path : List String
  name : String
  width : Nat
  id : Nat
  deriving DecidableEq, Repr

/-- A signal's variable: the last part of its name is the variable's, the others are scopes. -/
def declaredAs (s : Signal) (id : Nat) : Variable :=
  ⟨rootScope :: s.parts.dropLast, s.parts.getLastD "", s.width, id⟩

/-! ### Walks -/

/-- Where a walk has come to: the scopes that are open, outermost first, all that have been opened,
each with those around it, and what has been found. -/
structure Walk (α : Type) where
  path : List String
  opened : List (List String)
  found : List α
  deriving DecidableEq, Repr

namespace Walk

variable {α : Type}

def start : Walk α := ⟨[], [], []⟩

def enter (w : Walk α) (name : String) : Walk α :=
  { w with path := w.path ++ [name], opened := w.opened ++ [w.path ++ [name]] }

/-- Out of the innermost scope.  There has to be one. -/
def leave? (w : Walk α) : Option (Walk α) :=
  if w.path = [] then none else some { w with path := w.path.dropLast }

def find (w : Walk α) (a : α) : Walk α := { w with found := w.found ++ [a] }

/-- The walk after a command of a header. -/
def follow (w : Walk Variable) : Command → Option (Walk Variable)
  | .scope name => some (w.enter name)
  | .var width id name => some (w.find ⟨w.path, name, width, id⟩)
  | .upscope => w.leave?
  | .timescale | .endDefinitions => some w
  | .time _ | .scalar _ _ | .vector _ _ => none

/-- The walk after a declaration.  It finds entries with the scopes that they stand in. -/
def visit (w : Walk Entry) : Declaration → Option (Walk Entry)
  | .scope name => some (w.enter name)
  | .var e => some (w.find { e with path := w.path })
  | .upscope => w.leave?

/-- The walk after the visit of a scope: it is where it was, and has seen more. -/
def grow (w : Walk α) (opened : List (List String)) (found : List α) : Walk α :=
  { w with opened := w.opened ++ opened, found := w.found ++ found }

theorem grow_nil (w : Walk α) : w.grow [] [] = w := by
  simp only [grow, List.append_nil]

theorem grow_grow (w : Walk α) (opened opened' : List (List String)) (found found' : List α) :
    (w.grow opened found).grow opened' found' = w.grow (opened ++ opened') (found ++ found') := by
  simp only [grow, List.append_assoc]

/-- Into a scope and, when it has been visited, out of it. -/
theorem leave?_enter_grow (w : Walk α) (name : String) (opened : List (List String))
    (found : List α) : ((w.enter name).grow opened found).leave? =
      some (w.grow ((w.path ++ [name]) :: opened) found) := by
  have hopen : (w.path ++ [name]) ≠ [] := List.append_ne_nil_of_right_ne_nil _ (List.cons_ne_nil _ _)
  simp only [leave?, enter, grow, if_neg hopen, List.dropLast_concat, List.append_assoc,
    List.singleton_append]

end Walk

/-- An entry as the variable with some number. -/
def Entry.numbered (e : Entry) (id : Nat) : Variable := ⟨e.path, e.name, e.width, id⟩

/-- A walk through declarations as one through commands: variables are numbered as they are found.
-/
def Walk.numbered (w : Walk Entry) : Walk Variable :=
  ⟨w.path, w.opened, w.found.zipIdx.map fun row => row.1.numbered row.2⟩

theorem Walk.numbered_leave? (w : Walk Entry) :
    w.numbered.leave? = w.leave?.map Walk.numbered := by
  by_cases h : w.path = []
  · simp [leave?, numbered, h]
  · simp [leave?, numbered, h]

theorem Walk.numbered_find (w : Walk Entry) (e : Entry) :
    (w.find e).numbered = w.numbered.find (e.numbered w.found.length) := by
  simp [find, numbered, List.zipIdx_append]

/-- The commands of some declarations lead where the declarations lead. -/
theorem follow_commands (ds : List Declaration) (w : Walk Entry) :
    (commands w.found.length ds).foldlM Walk.follow w.numbered =
      (ds.foldlM Walk.visit w).map Walk.numbered := by
  induction ds generalizing w with
  | nil => rfl
  | cons d ds ih =>
    cases d with
    | scope name => exact ih (w.enter name)
    | var e =>
      have hrest := ih (w.find { e with path := w.path })
      rw [Walk.numbered_find] at hrest
      have hlength : (w.find { e with path := w.path }).found.length = w.found.length + 1 := by
        simp [Walk.find]
      rw [hlength] at hrest
      exact hrest
    | upscope =>
      rw [commands, List.foldlM_cons, List.foldlM_cons, Walk.follow, Walk.visit,
        Walk.numbered_leave?]
      by_cases h : w.path = []
      · simp [Walk.leave?, h]
      · simp only [Walk.leave?, if_neg h, Option.map_some, Option.bind_eq_bind, Option.bind_some]
        exact ih { w with path := w.path.dropLast }

/-! ### What a walk finds -/

/-- The scopes that `declare` opens in a scope. -/
def scopesIn (path : List String) : (levels : Nat) → List Entry → List (List String)
  | 0, _ => []
  | levels + 1, es => (innerScopes es).flatMap fun name =>
      (path ++ [name]) :: scopesIn (path ++ [name]) levels (es.filterMap (Entry.enter? name))

theorem visit_vars (es : List Entry) (w : Walk Entry) :
    (es.map .var).foldlM Walk.visit w =
      some (w.grow [] (es.map fun e => { e with path := w.path })) := by
  induction es generalizing w with
  | nil => exact congrArg some w.grow_nil.symm
  | cons e es ih =>
    have hfind : w.find { e with path := w.path } = w.grow [] [{ e with path := w.path }] := by
      simp only [Walk.find, Walk.grow, List.append_nil]
    rw [List.map_cons, List.foldlM_cons, Walk.visit, Option.bind_eq_bind, Option.bind_some, ih, hfind,
      Walk.grow_grow]
    rfl

/-- One scope after another. -/
theorem visit_scopes {inside : String → List Declaration}
    (opened : List String → String → List (List String))
    (found : List String → String → List Entry)
    (hinside : ∀ name (w : Walk Entry), (inside name).foldlM Walk.visit w =
      some (w.grow (opened w.path name) (found w.path name)))
    (names : List String) (w : Walk Entry) :
    (names.flatMap fun name => .scope name :: (inside name ++ [.upscope])).foldlM Walk.visit w =
      some (w.grow
        (names.flatMap fun name => (w.path ++ [name]) :: opened (w.path ++ [name]) name)
        (names.flatMap fun name => found (w.path ++ [name]) name)) := by
  induction names generalizing w with
  | nil => exact congrArg some w.grow_nil.symm
  | cons name names ih =>
    have hscope : (.scope name :: (inside name ++ [.upscope])).foldlM Walk.visit w =
        some (w.grow ((w.path ++ [name]) :: opened (w.path ++ [name]) name)
          (found (w.path ++ [name]) name)) := by
      rw [List.foldlM_cons, Walk.visit, Option.bind_eq_bind, Option.bind_some, List.foldlM_append,
        hinside, Option.bind_eq_bind, Option.bind_some, List.foldlM_cons, Walk.visit,
        Walk.leave?_enter_grow]
      rfl
    rw [List.flatMap_cons, List.foldlM_append, hscope, Option.bind_eq_bind, Option.bind_some, ih,
      Walk.grow_grow]
    rfl

theorem map_under_own (path : List String) (es : List Entry) :
    (es.filter (·.path.isEmpty)).map (Entry.under path) =
      (es.filter (·.path.isEmpty)).map fun e => { e with path } := by
  refine List.map_congr_left fun e he => ?_
  have hempty : e.path = [] := List.isEmpty_iff.mp (List.mem_filter.mp he).2
  rw [Entry.under, hempty, List.append_nil]

/-- A walk through what `declare` gives ends where it began. -/
theorem visit_declare (levels : Nat) (es : List Entry) (w : Walk Entry) :
    (declare levels es).foldlM Walk.visit w =
      some (w.grow (scopesIn w.path levels es) (entriesIn w.path levels es)) := by
  induction levels generalizing es w with
  | zero => rw [declare, visit_vars, scopesIn, entriesIn, map_under_own]
  | succ levels ih =>
    have hscopes := visit_scopes
      (fun path name => scopesIn path levels (es.filterMap (Entry.enter? name)))
      (fun path name => entriesIn path levels (es.filterMap (Entry.enter? name)))
      (fun name w => ih (es.filterMap (Entry.enter? name)) w) (innerScopes es)
    rw [declare, List.foldlM_append, visit_vars, Option.bind_eq_bind, Option.bind_some, hscopes,
      Walk.grow_grow, scopesIn, entriesIn, map_under_own]
    rfl

/-! ### Scopes -/

section Scopes

variable {path p : List String} {levels : Nat} {es : List Entry}

/-- A scope that is opened lies on the path of an entry. -/
theorem exists_of_mem_scopesIn (h : p ∈ scopesIn path levels es) :
    ∃ scopes, scopes ≠ [] ∧ p = path ++ scopes ∧ ∃ e ∈ es, scopes <+: e.path := by
  induction levels generalizing path es with
  | zero => cases h
  | succ levels ih =>
    obtain ⟨name, hname, hp⟩ := List.mem_flatMap.mp h
    rcases List.mem_cons.mp hp with rfl | hp
    · obtain ⟨e, he, hhead⟩ := mem_innerScopes.mp hname
      obtain ⟨rest, hpath⟩ := List.head?_eq_some_iff.mp hhead
      refine ⟨[name], List.cons_ne_nil _ _, rfl, e, he, ?_⟩
      rw [hpath]
      exact List.prefix_append [name] rest
    · obtain ⟨scopes, -, rfl, e', he', hscopes⟩ := ih hp
      obtain ⟨e, he, hpath⟩ := exists_of_mem_enter he'
      refine ⟨name :: scopes, List.cons_ne_nil _ _, List.append_assoc _ _ _, e, he, ?_⟩
      rw [hpath]
      exact List.cons_prefix_cons.mpr ⟨rfl, hscopes⟩

theorem notMem_scopesIn : path ∉ scopesIn path levels es := fun h => by
  obtain ⟨scopes, hne, hself, -⟩ := exists_of_mem_scopesIn h
  exact hne (List.append_right_eq_self.mp hself.symm)

theorem nodup_scopesIn (path : List String) (levels : Nat) (es : List Entry) :
    (scopesIn path levels es).Nodup := by
  induction levels generalizing path es with
  | zero => exact List.nodup_nil
  | succ levels ih =>
    have hbelow (name : String) : ∀ p ∈ (path ++ [name]) ::
        scopesIn (path ++ [name]) levels (es.filterMap (Entry.enter? name)), path ++ [name] <+: p := by
      intro p hp
      rcases List.mem_cons.mp hp with rfl | hp
      · exact List.prefix_rfl
      · obtain ⟨scopes, -, rfl, -⟩ := exists_of_mem_scopesIn hp
        exact List.prefix_append _ _
    rw [scopesIn, List.nodup_flatMap]
    constructor
    · exact fun name _ => List.nodup_cons.mpr ⟨notMem_scopesIn, ih _ _⟩
    · refine (nodup_innerScopes es).imp fun hne => ?_
      exact fun p hp hp' => hne (inner_inj (hbelow _ p hp) (hbelow _ p hp'))

end Scopes

/-! ### The order of the recorder -/

section Order

/-- Numbered entries in the order of the signal table. -/
def sorted (numbered : List (Entry × Nat)) : List (Entry × Nat) :=
  numbered.mergeSort fun a b => decide (a.1.signal ≤ b.1.signal)

variable {found es : List Entry}

/-- The entries of a signal table are in its order. -/
theorem pairwise_entries (depth : Nat) (table : List Signal) :
    (entries depth table).Pairwise fun e e' => e.signal < e'.signal := by
  have hrows : table.zipIdx.Pairwise fun row row' => row.2 < row'.2 := by
    rw [← List.pairwise_map, List.zipIdx_map_snd]
    exact List.pairwise_lt_range'
  rw [entries_eq_map_ofRow, List.pairwise_map]
  exact hrows.filter _

theorem signal_trans (a b c : Entry × Nat) (hab : decide (a.1.signal ≤ b.1.signal) = true)
    (hbc : decide (b.1.signal ≤ c.1.signal) = true) : decide (a.1.signal ≤ c.1.signal) = true :=
  decide_eq_true (Nat.le_trans (of_decide_eq_true hab) (of_decide_eq_true hbc))

theorem signal_total (a b : Entry × Nat) :
    (decide (a.1.signal ≤ b.1.signal) || decide (b.1.signal ≤ a.1.signal)) = true := by
  simpa using Nat.le_total a.1.signal b.1.signal

theorem sorted_perm (numbered : List (Entry × Nat)) : (sorted numbered).Perm numbered :=
  List.mergeSort_perm _ _

/-- What is found comes, when it is sorted, in the order of the entries of the table. -/
theorem map_fst_sorted (hperm : found.Perm es)
    (hordered : es.Pairwise fun e e' => e.signal < e'.signal) :
    (sorted found.zipIdx).map Prod.fst = es := by
  have hsorted : ((sorted found.zipIdx).map Prod.fst).Pairwise fun e e' => e.signal ≤ e'.signal := by
    rw [List.pairwise_map]
    exact (List.pairwise_mergeSort signal_trans signal_total _).imp of_decide_eq_true
  have hsame : ((sorted found.zipIdx).map Prod.fst).Perm es := by
    refine ((sorted_perm found.zipIdx).map _).trans ?_
    rw [List.zipIdx_map_fst]
    exact hperm
  have hnodup : (es.map (·.signal)).Nodup := List.pairwise_map.mpr (hordered.imp Nat.ne_of_lt)
  refine List.Perm.eq_of_pairwise (fun e e' he he' hle hle' => ?_) hsorted
    (hordered.imp Nat.le_of_lt) hsame
  exact List.inj_on_of_nodup_map hnodup (hsame.subset he) he' (Nat.le_antisymm hle hle')

/-- Sorting does not move what stands in one scope, where that is in the order of the table. -/
theorem filter_sorted {p : Entry → Bool}
    (hordered : (found.filter p).Pairwise fun e e' => e.signal < e'.signal) :
    (sorted found.zipIdx).filter (fun row => p row.1) =
      found.zipIdx.filter (fun row => p row.1) := by
  have hrows : (found.zipIdx.filter fun row => p row.1).Pairwise fun a b =>
      decide (a.1.signal ≤ b.1.signal) = true := by
    have hfirst : (found.zipIdx.filter fun row => p row.1).map Prod.fst = found.filter p := by
      have hmap := List.filter_map (f := Prod.fst) (p := p) (l := found.zipIdx)
      rw [List.zipIdx_map_fst] at hmap
      exact hmap.symm
    rw [← hfirst, List.pairwise_map] at hordered
    exact hordered.imp fun h => decide_eq_true (Nat.le_of_lt h)
  have hsub : (found.zipIdx.filter fun row => p row.1).Sublist (sorted found.zipIdx) :=
    List.sublist_mergeSort signal_trans signal_total hrows List.filter_sublist
  have hfiltered := hsub.filter fun row => p row.1
  rw [List.filter_filter] at hfiltered
  simp only [Bool.and_self] at hfiltered
  exact (hfiltered.eq_of_length ((sorted_perm _).filter _).length_eq.symm).symm

/-- What the recorder knows of a numbered entry before the first sample. -/
def Traced.ofEntry (row : Entry × Nat) : Traced := ⟨row.1.signal, row.2, row.1.width, none⟩

/-- The recorder numbers the signals as they are found. -/
theorem tracedOf_eq {ds : List Declaration}
    (h : found.map Entry.row = (declared ds).map Entry.row) :
    tracedOf ds = (sorted found.zipIdx).map Traced.ofEntry := by
  have hrows (es : List Entry) : es.zipIdx.map Traced.ofEntry =
      (es.map Entry.row).zipIdx.map fun row => (⟨row.1.1, row.2, row.1.2, none⟩ : Traced) := by
    rw [List.zipIdx_map, List.map_map]
    rfl
  have htraced : tracedOf ds = ((declared ds).zipIdx.map Traced.ofEntry).mergeSort
    fun a b => decide (a.signal ≤ b.signal) := rfl
  have hsorted : (found.zipIdx.map Traced.ofEntry).mergeSort
      (fun a b => decide (a.signal ≤ b.signal)) = (sorted found.zipIdx).map Traced.ofEntry :=
    (List.map_mergeSort (f := Traced.ofEntry) fun _ _ _ _ => rfl).symm
  rw [htraced, hrows, ← h, ← hrows, hsorted]

end Order

/-! ### Headers -/

/-- The variables that the rows of a signal table have in a dump: each with the number under which
it is recorded. -/
def recordedAs (rows : List (Signal × SignalId)) (traced : List Traced) : List Variable :=
  List.zipWith (fun row t => declaredAs row.1 t.id) rows traced

/-- A walk through a header has seen the rows of a signal table declared as they are recorded. -/
structure Walk.Nests (w : Walk Variable) (rows : List (Signal × SignalId)) (traced : List Traced) :
    Prop where
  /-- Every scope that was opened is closed. -/
  closed : w.path = []
  /-- The outermost scope is opened before all others, -/
  root : w.opened.head? = some [rootScope]
  /-- which lie in it and hold a variable. -/
  inner : ∀ p ∈ w.opened.tail, ∃ scopes, scopes ≠ [] ∧ p = rootScope :: scopes ∧
    ∃ v ∈ w.found, p <+: v.path
  /-- No scope is opened twice. -/
  once : w.opened.Nodup
  numbers : w.found.map (·.id) = List.range w.found.length
  /-- The recorder has the rows in the order of the table. -/
  recorded : traced.map (fun t => (t.signal, t.width)) = rows.map fun row => (row.2, row.1.width)
  /-- What was found are the variables of the rows, -/
  complete : w.found.Perm (recordedAs rows traced)
  /-- which have the order of the table where they stand in one scope. -/
  ordered : ∀ scopes, w.found.filter (fun v => decide (v.path = rootScope :: scopes)) =
    (recordedAs rows traced).filter fun v => decide (v.path = rootScope :: scopes)

/-- A walk that has seen all declarations of a signal table. -/
def seen (depth : Nat) (table : List Signal) : Walk Entry :=
  let es := entries depth table
  ⟨[], [rootScope] :: scopesIn [rootScope] (levelsOf es) es, entriesIn [rootScope] (levelsOf es) es⟩

theorem visit_layout (depth : Nat) (table : List Signal) :
    (layout depth table).foldlM Walk.visit .start = some (seen depth table) := by
  rw [layout, List.foldlM_cons, Walk.visit, Option.bind_eq_bind, Option.bind_some,
    List.foldlM_append, visit_declare, Option.bind_eq_bind, Option.bind_some, List.foldlM_cons,
    Walk.visit, Walk.leave?_enter_grow]
  rfl

theorem follow_header (ds : List Declaration) :
    (header ds).foldlM Walk.follow .start = (ds.foldlM Walk.visit .start).map Walk.numbered := by
  have hcommands : (commands 0 ds).foldlM Walk.follow .start =
      (ds.foldlM Walk.visit .start).map Walk.numbered := follow_commands ds .start
  have hend (w : Walk Variable) : [Command.endDefinitions].foldlM Walk.follow w = some w := rfl
  rw [header, List.foldlM_cons, Walk.follow, Option.bind_eq_bind, Option.bind_some,
    List.foldlM_append, hcommands]
  simp only [hend, Option.bind_eq_bind, Option.bind_fun_some]

section Header

variable (depth : Nat) (table : List Signal)

theorem found_perm : (seen depth table).found.Perm
    ((entries depth table).map (Entry.under [rootScope])) :=
  entriesIn_perm length_path_le

theorem pairwise_under : ((entries depth table).map (Entry.under [rootScope])).Pairwise
    fun e e' => e.signal < e'.signal :=
  List.pairwise_map.mpr (pairwise_entries depth table)

theorem tracedOf_layout : tracedOf (layout depth table) =
    (sorted (seen depth table).found.zipIdx).map Traced.ofEntry := by
  refine tracedOf_eq ?_
  have hroot := declared_scopes [rootScope] fun _ =>
    declare (levelsOf (entries depth table)) (entries depth table)
  simp only [List.flatMap_singleton] at hroot
  rw [layout, hroot]
  exact map_row_entriesIn _ _ _

theorem recordedAs_tracedOf :
    recordedAs (signalsWithin depth table) (tracedOf (layout depth table)) =
      (sorted (seen depth table).found.zipIdx).map fun row => row.1.numbered row.2 := by
  have hrows : (signalsWithin depth table).map (fun row => (Entry.ofRow row).under [rootScope]) =
      (sorted (seen depth table).found.zipIdx).map Prod.fst := by
    rw [map_fst_sorted (found_perm depth table) (pairwise_under depth table), entries_eq_map_ofRow,
      List.map_map]
    rfl
  have hsplit (rows : List (Signal × SignalId)) (traced : List Traced) : recordedAs rows traced =
      List.zipWith (fun e t => e.numbered t.id)
        (rows.map fun row => (Entry.ofRow row).under [rootScope]) traced := by
    rw [List.zipWith_map_left]
    rfl
  rw [hsplit, hrows, tracedOf_layout, List.zipWith_map, List.zipWith_self]
  rfl

/-- The recorder has the signals within the depth limit, in the order of the table. -/
theorem map_tracedOf : (tracedOf (layout depth table)).map (fun t => (t.signal, t.width)) =
    (signalsWithin depth table).map fun row => (row.2, row.1.width) := by
  have hrow : (tracedOf (layout depth table)).map (fun t => (t.signal, t.width)) =
      ((sorted (seen depth table).found.zipIdx).map Prod.fst).map Entry.row := by
    rw [tracedOf_layout, List.map_map, List.map_map]
    rfl
  rw [hrow, map_fst_sorted (found_perm depth table) (pairwise_under depth table),
    entries_eq_map_ofRow, List.map_map, List.map_map]
  rfl

/-- What stands in one scope has been found in the order of the recorder. -/
theorem filter_found (scopes : List String) :
    (sorted (seen depth table).found.zipIdx).filter
        (fun row => decide (row.1.path = rootScope :: scopes)) =
      (seen depth table).found.zipIdx.filter
        fun row => decide (row.1.path = rootScope :: scopes) := by
  refine filter_sorted (p := fun e => decide (e.path = [rootScope] ++ scopes)) ?_
  rw [seen, filter_entriesIn length_path_le, List.pairwise_map]
  exact (pairwise_entries depth table).filter _

variable {depth table}

/-- Where an entry stands, a variable has been found. -/
theorem exists_found {e : Entry} (h : e ∈ entries depth table) :
    ∃ v ∈ (seen depth table).numbered.found, v.path = rootScope :: e.path := by
  have hmem : e.under [rootScope] ∈ (seen depth table).found :=
    (found_perm depth table).mem_iff.mpr (List.mem_map_of_mem h)
  rw [← List.zipIdx_map_fst 0 (seen depth table).found] at hmem
  obtain ⟨row, hrow, hunder⟩ := List.mem_map.mp hmem
  exact ⟨row.1.numbered row.2, List.mem_map_of_mem hrow, congrArg Entry.path hunder⟩

end Header

/-- The header of a signal table closes every scope that it opens.  A walk through it finds the
variables of the signals within the depth limit, each in the scope that the signal's name leads to
and with the number under which the recorder has that signal. -/
theorem header_nests (limit : Option Nat) (depth : Nat) (table : List Signal) :
    let recorder := Recorder.start limit depth table
    recorder.text = render (header (layout depth table)) ∧
      ∃ w, (header (layout depth table)).foldlM Walk.follow .start = some w ∧
        w.Nests (signalsWithin depth table) recorder.traced := by
  intro recorder
  have hwalk : (header (layout depth table)).foldlM Walk.follow .start =
      some (seen depth table).numbered := by
    rw [follow_header, visit_layout, Option.map_some]
  have hfound : (seen depth table).numbered.found =
      (seen depth table).found.zipIdx.map fun row => row.1.numbered row.2 := rfl
  refine ⟨rfl, (seen depth table).numbered, hwalk, ?_⟩
  constructor
  case closed => rfl
  case root => rfl
  case inner =>
    intro p hp
    obtain ⟨scopes, hne, rfl, e, he, hscopes⟩ := exists_of_mem_scopesIn hp
    obtain ⟨v, hv, hpath⟩ := exists_found he
    refine ⟨scopes, hne, rfl, v, hv, ?_⟩
    rw [hpath]
    exact List.cons_prefix_cons.mpr ⟨rfl, hscopes⟩
  case once => exact List.nodup_cons.mpr ⟨notMem_scopesIn, nodup_scopesIn _ _ _⟩
  case numbers =>
    rw [hfound, List.map_map, List.length_map, List.length_zipIdx, List.range_eq_range']
    exact List.zipIdx_map_snd 0 _
  case recorded => exact map_tracedOf depth table
  case complete =>
    rw [hfound]
    refine List.Perm.trans ?_ (List.Perm.of_eq (recordedAs_tracedOf depth table).symm)
    exact (sorted_perm _).symm.map _
  case ordered =>
    intro scopes
    have hrecorded : recordedAs (signalsWithin depth table) recorder.traced = _ :=
      recordedAs_tracedOf depth table
    rw [hfound, hrecorded, List.filter_map, List.filter_map]
    exact congrArg _ (filter_found depth table scopes).symm

-- A variable comes before the scopes beside it, and two signals may share a name.
example :
    let table : List Signal := [.input "a.b" 8, .input "c" 1, .input "x.y.z" 1, .input "a.b" 4]
    (header (layout 2 table)).foldlM Walk.follow .start =
      some ⟨[], [["TOP"], ["TOP", "a"]],
        [⟨["TOP"], "c", 1, 0⟩, ⟨["TOP", "a"], "b", 8, 1⟩, ⟨["TOP", "a"], "b", 4, 2⟩]⟩ := by
  decide +kernel

end PinBench.Wave
