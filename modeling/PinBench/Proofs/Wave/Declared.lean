import Mathlib.Data.List.Nodup
import Mathlib.Data.List.Perm.Basic
import PinBench.Wave.Layout

/-! What a header declares: every row of the signal table whose name has at most as many parts as
the depth limit says, each once, in the order of the scopes (`declared_layout_perm`).  The header
numbers them in the order in which it declares them (`vars_header`).

The order of the scopes is that of `entriesIn`, which follows the recursion of `declare` and gives
every entry the whole path of the scope that it stands in.  It keeps the entries of each scope in
their own order (`filter_entriesIn`), and so leaves out and repeats nothing (`entriesIn_perm`). -/

namespace PinBench

/-- The parts of a signal's name between its dots. -/
def Signal.parts (s : Signal) : List String := (s.name.toList.splitOn '.').map String.ofList

namespace Wave

/-- The place and the width of the signal of an entry. -/
def Entry.row (e : Entry) : SignalId × Nat := (e.signal, e.width)

/-- The rows of a signal table whose names have at most `depth` parts. -/
def rowsWithin (depth : Nat) (table : List Signal) : List (SignalId × Nat) :=
  (table.zipIdx.filter fun row => decide (row.1.name.toList.count '.' < depth)).map fun row =>
    (row.2, row.1.width)

/-! ### Rows of the signal table -/

theorem length_splitDots (name : List Char) : (splitDots name).length = name.count '.' + 1 := by
  induction name with
  | nil => rfl
  | cons c rest ih =>
    rw [splitDots]
    cases hparts : splitDots rest with
    | nil => simp [hparts] at ih
    | cons part parts =>
      rw [hparts, List.length_cons] at ih
      by_cases hdot : c = '.'
      · simp [hdot]
        omega
      · simp [hdot]
        omega

theorem splitDots_eq_splitOn (name : List Char) : splitDots name = name.splitOn '.' := by
  induction name with
  | nil => rw [splitDots, List.splitOn_nil]
  | cons c rest ih =>
    rw [splitDots, ih, List.splitOn_cons_eq_if_modifyHead]
    cases hparts : rest.splitOn '.' with
    | nil => exact absurd hparts (List.splitOn_ne_nil _ _)
    | cons part parts => simp only [beq_iff_eq, List.modifyHead_cons]

/-- The entry of a row of the signal table. -/
def Entry.ofRow (row : Signal × SignalId) : Entry :=
  ⟨row.1.parts.dropLast, row.1.parts.getLastD "", row.2, row.1.width⟩

/-- The rows of a signal table whose names have at most `depth` parts. -/
def signalsWithin (depth : Nat) (table : List Signal) : List (Signal × SignalId) :=
  table.zipIdx.filter fun row => decide (row.1.parts.length ≤ depth)

theorem Entry.ofSignal?_eq_ofRow (depth : Nat) (row : Signal × SignalId) :
    Entry.ofSignal? depth row.2 row.1 =
      if row.1.parts.length ≤ depth then some (Entry.ofRow row) else none := by
  have hparts : (splitDots row.1.name.toList).map String.ofList = row.1.parts := by
    rw [splitDots_eq_splitOn, Signal.parts]
  have hne : row.1.parts ≠ [] := fun h =>
    List.splitOn_ne_nil '.' row.1.name.toList (List.map_eq_nil_iff.mp h)
  rw [Entry.ofSignal?, hparts, Entry.ofRow, List.getLastD_eq_getLast?,
    List.getLast?_eq_some_getLast hne]
  by_cases hdepth : row.1.parts.length ≤ depth
  · rw [if_neg (Nat.not_lt.mpr hdepth), if_pos hdepth]
    rfl
  · rw [if_pos (Nat.not_le.mp hdepth), if_neg hdepth]

theorem entries_eq_map_ofRow (depth : Nat) (table : List Signal) :
    entries depth table = (signalsWithin depth table).map Entry.ofRow := by
  rw [entries, signalsWithin, ← List.filterMap_eq_map, List.filterMap_filter]
  simp only [Entry.ofSignal?_eq_ofRow, decide_eq_true_eq, Function.comp_apply]

theorem length_parts (s : Signal) : s.parts.length = s.name.toList.count '.' + 1 := by
  rw [Signal.parts, List.length_map, ← splitDots_eq_splitOn, length_splitDots]

theorem map_row_entries (depth : Nat) (table : List Signal) :
    (entries depth table).map Entry.row = rowsWithin depth table := by
  rw [entries_eq_map_ofRow, List.map_map, signalsWithin, rowsWithin]
  simp only [length_parts, Nat.succ_le_iff]
  rfl

/-! ### Scopes -/

theorem nodup_eraseDups (names : List String) : names.eraseDups.Nodup := by
  match names with
  | [] => exact List.nodup_nil
  | name :: rest =>
    rw [List.eraseDups_cons, List.nodup_cons]
    refine ⟨fun hmem => ?_, nodup_eraseDups (rest.filter fun other => !other == name)⟩
    rw [List.mem_eraseDups, List.mem_filter] at hmem
    simp at hmem
termination_by names.length
decreasing_by exact Nat.lt_succ_of_le (List.length_filter_le _ _)

theorem nodup_innerScopes (es : List Entry) : (innerScopes es).Nodup :=
  (List.mergeSort_perm _ _).nodup_iff.mpr (nodup_eraseDups _)

theorem mem_innerScopes {es : List Entry} {name : String} :
    name ∈ innerScopes es ↔ ∃ e ∈ es, e.path.head? = some name := by
  rw [innerScopes, (List.mergeSort_perm _ _).mem_iff, List.mem_eraseDups, List.mem_filterMap]

/-! ### Entries -/

section Entries

variable {path p : List String} {levels : Nat} {es : List Entry} {e e' : Entry} {name : String}

/-- The entry from outside some scopes. -/
def Entry.under (path : List String) (e : Entry) : Entry := { e with path := path ++ e.path }

/-- The entries that `declare` declares in a scope, in order and from outside all scopes. -/
def entriesIn (path : List String) : (levels : Nat) → List Entry → List Entry
  | 0, es => (es.filter (·.path.isEmpty)).map (Entry.under path)
  | levels + 1, es => (es.filter (·.path.isEmpty)).map (Entry.under path) ++
      (innerScopes es).flatMap fun name =>
        entriesIn (path ++ [name]) levels (es.filterMap (Entry.enter? name))

theorem enter?_eq_some_iff :
    e.enter? name = some e' ↔ ∃ scopes, e.path = name :: scopes ∧ e' = { e with path := scopes } := by
  unfold Entry.enter?
  split
  · rename_i hpath
    simp [hpath]
  · rename_i scope rest hpath
    by_cases hscope : scope = name
    · simp [hscope, hpath, eq_comm]
    · simp [hscope, hpath]

/-- An entry that lies in a scope has the scope's name before its path inside. -/
theorem exists_of_mem_enter (h : e' ∈ es.filterMap (Entry.enter? name)) :
    ∃ e ∈ es, e.path = name :: e'.path := by
  obtain ⟨e, he, henter⟩ := List.mem_filterMap.mp h
  obtain ⟨scopes, hpath, rfl⟩ := enter?_eq_some_iff.mp henter
  exact ⟨e, he, hpath⟩

/-- What starts with two inner scopes of one scope starts with the same scope twice. -/
theorem inner_inj {name' : String} (h : path ++ [name] <+: p) (h' : path ++ [name'] <+: p) :
    name = name' := by
  obtain ⟨rest, rfl⟩ := h
  obtain ⟨rest', heq⟩ := h'
  simp only [List.append_assoc, List.append_cancel_left_eq, List.singleton_append,
    List.cons.injEq] at heq
  exact heq.1.symm

theorem prefix_of_mem_entriesIn (h : e ∈ entriesIn path levels es) : path <+: e.path := by
  induction levels generalizing path es with
  | zero =>
    obtain ⟨own, -, rfl⟩ := List.mem_map.mp h
    exact List.prefix_append _ _
  | succ levels ih =>
    rcases List.mem_append.mp h with h | h
    · obtain ⟨own, -, rfl⟩ := List.mem_map.mp h
      exact List.prefix_append _ _
    · obtain ⟨name, -, h⟩ := List.mem_flatMap.mp h
      exact (List.prefix_append path [name]).trans (ih h)

/-- In a scope that is not on the way to `p` no entry stands in `p`. -/
theorem filter_entriesIn_eq_nil (h : ¬path <+: p) :
    (entriesIn path levels es).filter (fun e => decide (e.path = p)) = [] := by
  refine List.filter_eq_nil_iff.mpr fun e he hpath => h ?_
  rw [← of_decide_eq_true hpath]
  exact prefix_of_mem_entriesIn he

theorem filter_under (path scopes : List String) (es : List Entry) :
    (es.map (Entry.under path)).filter (fun e => decide (e.path = path ++ scopes)) =
      (es.filter fun e => decide (e.path = scopes)).map (Entry.under path) := by
  rw [List.filter_map]
  congr 1
  refine List.filter_congr fun e _ => ?_
  simp [Entry.under]

/-- The entries of a scope in an inner one are those that enter the inner one and stand there. -/
theorem filter_enter (path scopes : List String) (name : String) (es : List Entry) :
    (((es.filterMap (Entry.enter? name)).filter fun e => decide (e.path = scopes)).map
        (Entry.under (path ++ [name]))) =
      (es.filter fun e => decide (e.path = name :: scopes)).map (Entry.under path) := by
  induction es with
  | nil => rfl
  | cons e es ih =>
    cases henter : e.enter? name with
    | none =>
      have hother : e.path ≠ name :: scopes := fun hpath => by
        have hsome : e.enter? name = some { e with path := scopes } :=
          enter?_eq_some_iff.mpr ⟨scopes, hpath, rfl⟩
        rw [henter] at hsome
        cases hsome
      simp [henter, hother, ih]
    | some e' =>
      obtain ⟨rest, hpath, rfl⟩ := enter?_eq_some_iff.mp henter
      by_cases hscopes : rest = scopes
      · simp [henter, hpath, hscopes, ih, Entry.under]
      · simp [henter, hpath, hscopes, ih]

theorem flatMap_eq_of_unique {α : Type} {names : List String} {name : String}
    {part : String → List α} (hnodup : names.Nodup) (hmem : name ∈ names)
    (hother : ∀ other, other ≠ name → part other = []) : names.flatMap part = part name := by
  obtain ⟨front, back, rfl⟩ := List.append_of_mem hmem
  have hnone (others : List String) (h : name ∉ others) : others.flatMap part = [] :=
    List.flatMap_eq_nil_iff.mpr fun other hother' => hother other fun heq => h (heq ▸ hother')
  obtain ⟨-, hback, hapart⟩ := List.nodup_append.mp hnodup
  have hfront : name ∉ front := fun h => hapart name h name List.mem_cons_self rfl
  rw [List.flatMap_append, List.flatMap_cons, hnone front hfront,
    hnone back (List.nodup_cons.mp hback).1, List.nil_append, List.append_nil]

/-- The entries that stand in one scope are declared in their own order. -/
theorem filter_entriesIn (h : ∀ e ∈ es, e.path.length ≤ levels) (scopes : List String) :
    (entriesIn path levels es).filter (fun e => decide (e.path = path ++ scopes)) =
      (es.filter fun e => decide (e.path = scopes)).map (Entry.under path) := by
  induction levels generalizing path es scopes with
  | zero =>
    have hall : es.filter (·.path.isEmpty) = es := by
      refine List.filter_eq_self.mpr fun e he => ?_
      rw [List.isEmpty_iff_length_eq_zero]
      exact Nat.le_zero.mp (h e he)
    rw [entriesIn, hall, filter_under]
  | succ levels ih =>
    rw [entriesIn, List.filter_append, filter_under, List.filter_filter, List.filter_flatMap]
    cases scopes with
    | nil =>
      have hinner : (innerScopes es).flatMap (fun name =>
          (entriesIn (path ++ [name]) levels (es.filterMap (Entry.enter? name))).filter
            fun e => decide (e.path = path ++ [])) = [] := by
        refine List.flatMap_eq_nil_iff.mpr fun name _ => filter_entriesIn_eq_nil fun hbelow => ?_
        have hlength := hbelow.length_le
        rw [List.length_append, List.append_nil, List.length_singleton] at hlength
        omega
      rw [hinner, List.append_nil]
      congr 1
      refine List.filter_congr fun e _ => ?_
      simp [List.isEmpty_iff]
    | cons name scopes =>
      have hown : es.filter (fun e => decide (e.path = name :: scopes) && e.path.isEmpty) = [] := by
        refine List.filter_eq_nil_iff.mpr fun e _ hboth => ?_
        rw [Bool.and_eq_true, decide_eq_true_eq, List.isEmpty_iff] at hboth
        exact List.cons_ne_nil _ _ (hboth.1.symm.trans hboth.2)
      rw [hown, List.map_nil, List.nil_append]
      have hother (other : String) (hne : other ≠ name) :
          (entriesIn (path ++ [other]) levels (es.filterMap (Entry.enter? other))).filter
            (fun e => decide (e.path = path ++ name :: scopes)) = [] := by
        refine filter_entriesIn_eq_nil fun hbelow => hne ?_
        rw [List.append_cons path name scopes] at hbelow
        exact inner_inj hbelow (List.prefix_append _ _)
      by_cases hname : name ∈ innerScopes es
      · rw [flatMap_eq_of_unique (nodup_innerScopes es) hname hother, List.append_cons, ih,
          filter_enter]
        intro e' he'
        obtain ⟨e, he, hpath⟩ := exists_of_mem_enter he'
        have hlength := h e he
        rw [hpath] at hlength
        exact Nat.le_of_succ_le_succ hlength
      · have hnone : es.filter (fun e => decide (e.path = name :: scopes)) = [] := by
          refine List.filter_eq_nil_iff.mpr fun e he hpath => hname ?_
          exact mem_innerScopes.mpr ⟨e, he, by rw [of_decide_eq_true hpath]; rfl⟩
        rw [hnone, List.map_nil]
        exact List.flatMap_eq_nil_iff.mpr fun other hmem => hother other fun heq => hname (heq ▸ hmem)

/-- Every entry is declared once, and stands where its path leads. -/
theorem entriesIn_perm (h : ∀ e ∈ es, e.path.length ≤ levels) :
    (entriesIn path levels es).Perm (es.map (Entry.under path)) := by
  refine List.perm_iff_count.mpr fun e => ?_
  by_cases hbelow : path <+: e.path
  · obtain ⟨scopes, hpath⟩ := hbelow
    have hstands : decide (e.path = path ++ scopes) = true := decide_eq_true hpath.symm
    rw [← List.count_filter (p := fun e : Entry => decide (e.path = path ++ scopes)) hstands,
      filter_entriesIn h, ← filter_under,
      List.count_filter (p := fun e : Entry => decide (e.path = path ++ scopes)) hstands]
  · rw [List.count_eq_zero.mpr fun hmem => hbelow (prefix_of_mem_entriesIn hmem),
      List.count_eq_zero.mpr fun hmem => hbelow ?_]
    obtain ⟨own, -, rfl⟩ := List.mem_map.mp hmem
    exact List.prefix_append _ _

end Entries

/-! ### Declarations -/

theorem declared_append (ds ds' : List Declaration) :
    declared (ds ++ ds') = declared ds ++ declared ds' :=
  List.filterMap_append

theorem declared_vars (es : List Entry) : declared (es.map .var) = es := by
  rw [declared, List.filterMap_map]
  exact List.filterMap_some

theorem declared_scopes (names : List String) (inside : String → List Declaration) :
    declared (names.flatMap fun name => .scope name :: (inside name ++ [.upscope])) =
      names.flatMap fun name => declared (inside name) := by
  induction names with
  | nil => rfl
  | cons name names ih =>
    rw [List.flatMap_cons, List.flatMap_cons, declared_append, ih]
    congr 1
    have hscope : declared (.scope name :: (inside name ++ [.upscope])) =
        declared (inside name ++ [.upscope]) := rfl
    have hend : declared [.upscope] = [] := rfl
    rw [hscope, declared_append, hend, List.append_nil]

theorem map_row_under (path : List String) (es : List Entry) :
    (es.map (Entry.under path)).map Entry.row = es.map Entry.row := by
  rw [List.map_map]
  rfl

/-- What is found in a scope is what is declared there. -/
theorem map_row_entriesIn (path : List String) (levels : Nat) (es : List Entry) :
    (entriesIn path levels es).map Entry.row = (declared (declare levels es)).map Entry.row := by
  induction levels generalizing path es with
  | zero => rw [entriesIn, map_row_under, declare, declared_vars]
  | succ levels ih =>
    rw [entriesIn, List.map_append, map_row_under, List.map_flatMap, declare, declared_append,
      declared_vars, declared_scopes, List.map_append, List.map_flatMap]
    congr 2
    exact funext fun name => ih (path ++ [name]) (es.filterMap (Entry.enter? name))

/-- Every entry is declared once. -/
theorem declared_declare_perm {levels : Nat} {es : List Entry}
    (h : ∀ e ∈ es, e.path.length ≤ levels) :
    ((declared (declare levels es)).map Entry.row).Perm (es.map Entry.row) := by
  rw [← map_row_entriesIn [], ← map_row_under [] es]
  exact (entriesIn_perm h).map _

theorem length_path_le {es : List Entry} : ∀ e ∈ es, e.path.length ≤ levelsOf es := by
  have hmax (lengths : List Nat) (start : Nat) : start ≤ lengths.foldl max start ∧
      ∀ n ∈ lengths, n ≤ lengths.foldl max start := by
    induction lengths generalizing start with
    | nil => simp
    | cons m lengths ih =>
      obtain ⟨hstart, hall⟩ := ih (max start m)
      rw [List.foldl_cons]
      refine ⟨by omega, fun n hn => ?_⟩
      rcases List.mem_cons.mp hn with rfl | hn
      · omega
      · exact hall n hn
  intro e he
  exact (hmax _ 0).2 _ (List.mem_map_of_mem he)

/-- The declared signals are the rows of the table within the depth limit. -/
theorem declared_layout_perm (depth : Nat) (table : List Signal) :
    ((declared (layout depth table)).map Entry.row).Perm (rowsWithin depth table) := by
  have hroot (ds : List Declaration) :
      declared (.scope rootScope :: (ds ++ [.upscope])) = declared ds := by
    have hscopes := declared_scopes [rootScope] fun _ => ds
    simpa using hscopes
  rw [layout, hroot, ← map_row_entries]
  exact declared_declare_perm length_path_le

/-- The variable that a command declares, if it does: its width, its number and its name. -/
def Command.var? : Command → Option (Nat × Nat × String)
  | .var width id name => some (width, id, name)
  | _ => none

/-- The variables of a header are numbered in the order in which they are declared. -/
theorem vars_header (ds : List Declaration) : (header ds).filterMap Command.var? =
    (declared ds).zipIdx.map fun row => (row.1.width, row.2, row.1.name) := by
  have hcommands (next : Nat) : (commands next ds).filterMap Command.var? =
      ((declared ds).zipIdx next).map fun row => (row.1.width, row.2, row.1.name) := by
    induction ds generalizing next with
    | nil => rfl
    | cons d ds ih =>
      cases d with
      | scope name => exact ih next
      | upscope => exact ih next
      | var e =>
        have hdeclared : declared (.var e :: ds) = e :: declared ds := rfl
        rw [commands, hdeclared, List.zipIdx_cons, List.map_cons, ← ih (next + 1)]
        rfl
  have hheader : (header ds).filterMap Command.var? =
      (commands 0 ds ++ [Command.endDefinitions]).filterMap Command.var? := rfl
  have hend : [Command.endDefinitions].filterMap Command.var? = [] := rfl
  rw [hheader, List.filterMap_append, hend, List.append_nil, hcommands]

end Wave

end PinBench
