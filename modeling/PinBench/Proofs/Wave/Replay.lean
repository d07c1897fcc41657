import Mathlib.Data.List.Nodup
import PinBench.Proofs.Wave.Declared
import PinBench.Proofs.Wave.Reading
import PinBench.Wave.Recorder

/-! A dump replays to what was recorded.  The recorder writes only the values that have changed, so
a value has to be looked for among all the blocks up to a sample; the last change that the reader
finds there is the value that the model had at the sample (`replays_sample`). -/

namespace PinBench.Wave

/-- One sample: its time and the words on the model's signals. -/
structure Sample where
  time : Nat
  read : SignalId → Word

/-- The blocks of a dump say what the samples of the declared signals were. -/
structure Faithful (es : List Entry) (samples : List Sample) (blocks : List Block) : Prop where
  times : blocks.map (·.time) = samples.map (·.time)
  distinct : (es.zipIdx.map fun row => code row.2).Nodup
  /-- The last change of a signal up to a sample is the value that it had there. -/
  values : ∀ k s, samples[k]? = some s → ∀ e id, (e, id) ∈ es.zipIdx →
    lastChange? blocks k (code id) =
      some ⟨code id, e.width, (s.read e.signal).toNat % 2 ^ e.width⟩
  /-- The first block has one change for each signal. -/
  first : ∀ block, blocks[0]? = some block →
    (block.changes.map (·.code)).Perm (es.zipIdx.map fun row => code row.2)
  /-- A later block has no change of a signal whose word is that of the sample before. -/
  later : ∀ k s s' block, samples[k]? = some s → samples[k + 1]? = some s' →
    blocks[k + 1]? = some block → ∀ e id, (e, id) ∈ es.zipIdx →
      s.read e.signal = s'.read e.signal → code id ∉ block.changes.map (·.code)

/-- A dump with the header of some declarations whose body replays to the samples. -/
def Replays (declarations : List Declaration) (samples : List Sample) (text : String) : Prop :=
  ∃ body blocks, text = render (header declarations) ++ body ∧ readBody? body = some blocks ∧
    Faithful (declared declarations) samples blocks

/-! ### What a sample writes -/

variable {T : List Traced} {t : Traced} {s : Sample} {samples : List Sample}

/-- The change to a value. -/
def Traced.reading (t : Traced) (value : Word) : Change :=
  ⟨code t.id, t.width, value.toNat % 2 ^ t.width⟩

/-- A recorded signal after a sample. -/
def Traced.seen (s : Sample) (t : Traced) : Traced := { t with last := some (s.read t.signal) }

/-- What a sample changes. -/
def changed (T : List Traced) (s : Sample) : List Change :=
  (T.filter fun t => decide (t.last ≠ some (s.read t.signal))).map fun t =>
    t.reading (s.read t.signal)

/-- The blocks that some samples make. -/
def blocksOf (T : List Traced) : List Sample → List Block
  | [] => []
  | s :: rest => ⟨s.time, changed T s⟩ :: blocksOf (T.map (Traced.seen s)) rest

def linesOf (blocks : List Block) : List Line :=
  blocks.flatMap fun b => .mark b.time :: b.changes.map .change

theorem group_linesOf (blocks : List Block) : group (linesOf blocks) = ([], blocks) := by
  have hchanges (changes : List Change) (rest : List Line) :
      group (changes.map .change ++ rest) = (changes ++ (group rest).1, (group rest).2) := by
    induction changes with
    | nil => rfl
    | cons c changes ih => simp [group, ih]
  induction blocks with
  | nil => rfl
  | cons b blocks ih =>
    have hcons : linesOf (b :: blocks) =
        .mark b.time :: (b.changes.map .change ++ linesOf blocks) := rfl
    rw [hcons, group, hchanges, ih, List.append_nil]

theorem changes_eq (T : List Traced) (s : Sample) :
    (Recorder.changes s.read T).1.map Command.meaning? =
        (changed T s).map (fun c => some (.change c)) ∧
      (Recorder.changes s.read T).2 = T.map (Traced.seen s) := by
  induction T with
  | nil => exact ⟨rfl, rfl⟩
  | cons t T ih =>
    obtain ⟨hcommands, htraced⟩ := ih
    by_cases hsame : t.last = some (s.read t.signal)
    · have hseen : t.seen s = t := by
        simp only [Traced.seen, ← hsame]
      simp only [Recorder.changes, if_pos hsame, List.map_cons, hseen, htraced]
      simp [changed, hsame, hcommands]
    · simp only [Recorder.changes, if_neg hsame, List.map_cons, htraced,
        Command.change_meaning?, hcommands]
      simp [changed, hsame, Traced.reading, Traced.seen]

theorem text_samples {r : Recorder} (hopen : r.isOpen = true) (hlimit : r.limit = none)
    (samples : List Sample) :
    ∃ cs, (samples.foldl (fun r s => r.sample s.time s.read) r).text = r.text ++ render cs ∧
      cs.map Command.meaning? = (linesOf (blocksOf r.traced samples)).map some := by
  induction samples generalizing r with
  | nil => exact ⟨[], by simp [render], rfl⟩
  | cons s samples ih =>
    obtain ⟨hcommands, htraced⟩ := changes_eq r.traced s
    have hsample : r.sample s.time s.read =
        { r with
          traced := r.traced.map (Traced.seen s)
          text := r.text ++ render (.time s.time :: (Recorder.changes s.read r.traced).1) } := by
      simp only [Recorder.sample, hopen, if_true, htraced, hlimit, fits]
    obtain ⟨cs, htext, hmeaning⟩ := ih (r := r.sample s.time s.read)
      (by rw [hsample]; exact hopen) (by rw [hsample]; exact hlimit)
    refine ⟨.time s.time :: (Recorder.changes s.read r.traced).1 ++ cs, ?_, ?_⟩
    · rw [List.foldl_cons, htext, hsample, render_append, String.append_assoc]
    · have htail : (r.sample s.time s.read).traced = r.traced.map (Traced.seen s) := by rw [hsample]
      rw [htail] at hmeaning
      rw [List.map_append, hmeaning, List.map_cons, hcommands]
      simp [blocksOf, linesOf, Command.meaning?, Function.comp_def]

/-! ### What the blocks say -/

theorem find?_of_unique {α : Type} {l : List α} {p : α → Bool} {a : α} (ha : a ∈ l)
    (hp : p a = true) (hunique : ∀ x ∈ l, p x = true → x = a) : l.find? p = some a := by
  cases hfind : l.find? p with
  | none => exact absurd hp (List.find?_eq_none.mp hfind a ha)
  | some x => rw [hunique x (List.mem_of_find?_eq_some hfind) (List.find?_some hfind)]

theorem eq_of_code_eq (hids : (T.map (·.id)).Nodup) {t t' : Traced} (ht : t ∈ T) (ht' : t' ∈ T)
    (h : code t'.id = code t.id) : t' = t :=
  List.inj_on_of_nodup_map hids ht' ht (code_injective h)

/-- A change in a block, or the value from before it, is the value at the sample. -/
theorem value_changed (hids : (T.map (·.id)).Nodup) (ht : t ∈ T) (s : Sample) :
    ((changed T s).reverse.find? (·.code == code t.id)).or (t.last.map t.reading) =
      some (t.reading (s.read t.signal)) := by
  have hsame {c : Change} (hc : c ∈ (changed T s).reverse) (hcode : (c.code == code t.id) = true) :
      c = t.reading (s.read t.signal) ∧ t.last ≠ some (s.read t.signal) := by
    rw [List.mem_reverse, changed, List.mem_map] at hc
    obtain ⟨t', ht', rfl⟩ := hc
    rw [List.mem_filter, decide_eq_true_eq] at ht'
    obtain rfl : t' = t := eq_of_code_eq hids ht ht'.1 (beq_iff_eq.mp hcode)
    exact ⟨rfl, ht'.2⟩
  by_cases hlast : t.last = some (s.read t.signal)
  · have hnone : (changed T s).reverse.find? (·.code == code t.id) = none :=
      List.find?_eq_none.mpr fun c hc hcode => (hsame hc hcode).2 hlast
    rw [hnone, hlast]
    rfl
  · have hmem : t.reading (s.read t.signal) ∈ (changed T s).reverse := by
      rw [List.mem_reverse, changed]
      exact List.mem_map_of_mem (List.mem_filter.mpr ⟨ht, decide_eq_true hlast⟩)
    have hsome : (changed T s).reverse.find? (·.code == code t.id) =
        some (t.reading (s.read t.signal)) :=
      find?_of_unique hmem (by simp [Traced.reading]) fun c hc hcode => (hsame hc hcode).1
    rw [hsome]
    rfl

theorem map_id_seen (T : List Traced) (s : Sample) :
    (T.map (Traced.seen s)).map (·.id) = T.map (·.id) := by
  rw [List.map_map]
  rfl

/-- The last change up to a sample, or the value from before all of them, is the value there. -/
theorem value_blocksOf (hids : (T.map (·.id)).Nodup) (ht : t ∈ T) {k : Nat}
    (hs : samples[k]? = some s) :
    (lastChange? (blocksOf T samples) k (code t.id)).or (t.last.map t.reading) =
      some (t.reading (s.read t.signal)) := by
  induction samples generalizing T t k with
  | nil => cases hs
  | cons first rest ih =>
    have hsplit (k : Nat) : lastChange? (blocksOf T (first :: rest)) k (code t.id) =
        ((((blocksOf (T.map (Traced.seen first)) rest).take k).flatMap
          (·.changes)).reverse.find? (·.code == code t.id)).or
            ((changed T first).reverse.find? (·.code == code t.id)) := by
      rw [lastChange?, blocksOf, List.take_succ_cons, List.flatMap_cons, List.reverse_append,
        List.find?_append]
    rw [hsplit, Option.or_assoc, value_changed hids ht first]
    cases k with
    | zero =>
      cases hs
      rfl
    | succ k =>
      have hrest : rest[k]? = some s := by simpa using hs
      have hids' : ((T.map (Traced.seen first)).map (·.id)).Nodup := by
        rw [map_id_seen]
        exact hids
      exact ih hids' (List.mem_map_of_mem ht) hrest

theorem times_blocksOf (T : List Traced) (samples : List Sample) :
    (blocksOf T samples).map (·.time) = samples.map (·.time) := by
  induction samples generalizing T with
  | nil => rfl
  | cons s samples ih => rw [blocksOf, List.map_cons, List.map_cons, ih]

/-- A block after the first one has the changes since the sample before. -/
theorem getElem?_blocksOf {k : Nat} {s' : Sample} (hs : samples[k]? = some s)
    (hs' : samples[k + 1]? = some s') :
    (blocksOf T samples)[k + 1]? = some ⟨s'.time, changed (T.map (Traced.seen s)) s'⟩ := by
  induction samples generalizing T k with
  | nil => cases hs
  | cons first rest ih =>
    cases k with
    | zero =>
      cases hs
      cases rest with
      | nil => cases hs'
      | cons second rest =>
        cases hs'
        rfl
    | succ k =>
      have hrest : rest[k]? = some s := by simpa using hs
      have hnext : rest[k + 1]? = some s' := by simpa using hs'
      rw [blocksOf, List.getElem?_cons_succ, ih hrest hnext, List.map_map]
      rfl

/-! ### Whole dumps -/

theorem tracedOf_perm (declarations : List Declaration) :
    (tracedOf declarations).Perm
      ((declared declarations).zipIdx.map fun row => ⟨row.1.signal, row.2, row.1.width, none⟩) :=
  List.mergeSort_perm _ _

theorem mem_tracedOf {declarations : List Declaration} :
    t ∈ tracedOf declarations ↔
      ∃ e id, (e, id) ∈ (declared declarations).zipIdx ∧ t = ⟨e.signal, id, e.width, none⟩ := by
  rw [(tracedOf_perm declarations).mem_iff, List.mem_map]
  constructor
  · rintro ⟨⟨e, id⟩, hmem, rfl⟩
    exact ⟨e, id, hmem, rfl⟩
  · rintro ⟨e, id, hmem, rfl⟩
    exact ⟨(e, id), hmem, rfl⟩

theorem nodup_ids (declarations : List Declaration) :
    ((tracedOf declarations).map (·.id)).Nodup := by
  have hids : (((declared declarations).zipIdx.map fun row : Entry × Nat =>
      (⟨row.1.signal, row.2, row.1.width, none⟩ : Traced)).map (·.id)) =
        List.range' 0 (declared declarations).length := by
    rw [List.map_map]
    exact List.zipIdx_map_snd 0 (declared declarations)
  rw [((tracedOf_perm declarations).map _).nodup_iff, hids]
  exact List.nodup_range'

/-- The blocks that are written from the start on say what the samples were. -/
theorem faithful_blocksOf (declarations : List Declaration) (samples : List Sample) :
    Faithful (declared declarations) samples (blocksOf (tracedOf declarations) samples) := by
  have hids := nodup_ids declarations
  have hcodes : ((tracedOf declarations).map fun t => code t.id).Perm
      ((declared declarations).zipIdx.map fun row => code row.2) := by
    refine ((tracedOf_perm declarations).map _).trans (List.Perm.of_eq ?_)
    rw [List.map_map]
    rfl
  refine ⟨times_blocksOf _ samples, ?_, ?_, ?_, ?_⟩
  · rw [← hcodes.nodup_iff]
    have hmap : (tracedOf declarations).map (fun t => code t.id) =
        ((tracedOf declarations).map (·.id)).map code := by
      rw [List.map_map]
      rfl
    rw [hmap]
    exact hids.map fun _ _ h => code_injective h
  · intro k s hs e id hmem
    have hvalue := value_blocksOf hids (mem_tracedOf.mpr ⟨e, id, hmem, rfl⟩) hs
    rw [Option.map_none, Option.or_none] at hvalue
    exact hvalue
  · intro block hblock
    cases samples with
    | nil => cases hblock
    | cons s samples =>
      cases hblock
      have hall : (tracedOf declarations).filter (fun t => decide (t.last ≠ some (s.read t.signal))) =
          tracedOf declarations := by
        refine List.filter_eq_self.mpr fun t ht => ?_
        obtain ⟨e, id, -, rfl⟩ := mem_tracedOf.mp ht
        rfl
      have hall' : (changed (tracedOf declarations) s).map (·.code) =
          (tracedOf declarations).map fun t => code t.id := by
        rw [changed, hall, List.map_map]
        rfl
      rw [hall']
      exact hcodes
  · intro k s s' block hs hs' hblock e id hmem hsame hcode
    rw [getElem?_blocksOf hs hs', Option.some.injEq] at hblock
    subst hblock
    obtain ⟨c, hc, hcode⟩ := List.mem_map.mp hcode
    obtain ⟨t, ht, rfl⟩ := List.mem_map.mp hc
    rw [List.mem_filter, decide_eq_true_eq, List.mem_map] at ht
    obtain ⟨⟨t, ht, rfl⟩, hchanged⟩ := ht
    obtain rfl : t = ⟨e.signal, id, e.width, none⟩ :=
      eq_of_code_eq hids (mem_tracedOf.mpr ⟨e, id, hmem, rfl⟩) ht hcode
    exact hchanged (congrArg some hsame)

theorem replays_sample (depth : Nat) (table : List Signal) (samples : List Sample) :
    Replays (layout depth table) samples
      (samples.foldl (fun r s => r.sample s.time s.read) (Recorder.start none depth table)).text := by
  obtain ⟨cs, htext, hmeaning⟩ :=
    text_samples (r := Recorder.start none depth table) rfl rfl samples
  have hgroup := group_linesOf (blocksOf (tracedOf (layout depth table)) samples)
  have hread := readBody?_render hmeaning (congrArg Prod.fst hgroup)
  refine ⟨render cs, _, htext, hread, ?_⟩
  have hblocks : (group (linesOf (blocksOf (Recorder.start none depth table).traced samples))).2 =
      blocksOf (tracedOf (layout depth table)) samples := congrArg Prod.snd hgroup
  rw [hblocks]
  exact faithful_blocksOf (layout depth table) samples

end PinBench.Wave
