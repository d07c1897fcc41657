import Mathlib.Data.List.Pairwise
import PinBench.Gpio.Allocation

/-! What the check of an allocation decides.  Ranges pass it if and only if they lie inside the
word, belong to different owners and have no bit in common.  Otherwise the error is the first thing
wrong with the first range that does not go with those before it (`ofRanges_decides`).  The check
compares ends that go no further than `lastPlace`; inside the word these are the ends themselves. -/

namespace PinBench.Gpio

namespace InputRange

variable {r s : InputRange}

/-- Whether bit `j` belongs to the run. -/
def Owns (r : InputRange) (j : Nat) : Prop := r.lsb ≤ j ∧ j < r.lsb + r.width

instance (r : InputRange) (j : Nat) : Decidable (r.Owns j) :=
  inferInstanceAs (Decidable (_ ∧ _))

/-- The run lies inside the word. -/
def Inside (r : InputRange) : Prop := r.lsb + r.width ≤ inputWidth

/-- The runs have a bit in common. -/
def Meets (r s : InputRange) : Prop := ∃ j, r.Owns j ∧ s.Owns j

/-- The runs cannot both be in one allocation. -/
def Clashes (r s : InputRange) : Prop := r.owner = s.owner ∨ r.Meets s

theorem Meets.symm (h : r.Meets s) : s.Meets r :=
  let ⟨j, hr, hs⟩ := h
  ⟨j, hs, hr⟩

theorem lt_stop_iff : inputWidth < r.stop ↔ ¬r.Inside := by
  have hlast : inputWidth < lastPlace := by decide
  simp only [stop, Inside]
  omega

theorem Inside.stop_eq (h : r.Inside) : r.stop = r.lsb + r.width := by
  have hlast : inputWidth ≤ lastPlace := by decide
  exact Nat.min_eq_left (Nat.le_trans h hlast)

/-- Runs that overlap have a bit in common: the first one of the run that begins later. -/
theorem overlaps_iff (hr : r.Inside) (hs : s.Inside) : r.overlaps s = true ↔ r.Meets s := by
  simp only [overlaps, hr.stop_eq, hs.stop_eq, Bool.and_eq_true, bne_iff_ne, decide_eq_true_eq]
  constructor
  · rintro ⟨⟨⟨hrwidth, hswidth⟩, hrs⟩, hsr⟩
    refine ⟨max r.lsb s.lsb, ⟨Nat.le_max_left _ _, ?_⟩, Nat.le_max_right _ _, ?_⟩
    · omega
    · omega
  · rintro ⟨j, ⟨hrj, hjr⟩, hsj, hjs⟩
    omega

end InputRange

/-! ### One range after others -/

/-- What is wrong with a range that comes after others: it leaves the word, or else it clashes with
one of the others.  Of these the first counts, and there the same owner before common bits. -/
inductive Fault (earlier : List InputRange) (range : InputRange) : AllocationError → Prop where
  | outOfRange (h : ¬range.Inside) : Fault earlier range (.outOfRange range)
  | duplicateOwner {before after : List InputRange} {q : InputRange} (h : range.Inside)
      (hsplit : earlier = before ++ q :: after) (hbefore : ∀ p ∈ before, ¬p.Clashes range)
      (howner : q.owner = range.owner) : Fault earlier range (.duplicateOwner range.owner)
  | overlap {before after : List InputRange} {q : InputRange} (h : range.Inside)
      (hsplit : earlier = before ++ q :: after) (hbefore : ∀ p ∈ before, ¬p.Clashes range)
      (howner : q.owner ≠ range.owner) (hmeets : q.Meets range) :
      Fault earlier range (.overlap q.owner range.owner)

/-- The ranges can all be in one allocation. -/
structure Compatible (ranges : List InputRange) : Prop where
  inside : ∀ r ∈ ranges, r.Inside
  owners : (ranges.map (·.owner)).Nodup
  apart : ranges.Pairwise fun r s => ¬r.Meets s

section Check

variable {earlier ranges : List InputRange} {q range : InputRange} {e : AllocationError}

theorem conflict?_eq_some_iff (hq : q.Inside) (hrange : range.Inside) :
    conflict? q range = some e ↔
      q.owner = range.owner ∧ e = .duplicateOwner range.owner ∨
        q.owner ≠ range.owner ∧ q.Meets range ∧ e = .overlap q.owner range.owner := by
  rw [← InputRange.overlaps_iff hq hrange]
  unfold conflict?
  by_cases howner : q.owner = range.owner
  · simp only [howner, if_true, Option.some.injEq, ne_eq, not_true, true_and, false_and, or_false]
    exact eq_comm
  · by_cases hoverlaps : q.overlaps range = true
    · simp only [howner, hoverlaps, if_true, if_false, Option.some.injEq, ne_eq, not_false_iff,
        true_and, false_and, false_or]
      exact eq_comm
    · simp [howner, hoverlaps]

theorem conflict?_eq_none_iff (hq : q.Inside) (hrange : range.Inside) :
    conflict? q range = none ↔ ¬q.Clashes range := by
  rw [InputRange.Clashes, ← InputRange.overlaps_iff hq hrange, not_or]
  unfold conflict?
  by_cases howner : q.owner = range.owner
  · simp [howner]
  · by_cases hoverlaps : q.overlaps range = true
    · simp [howner, hoverlaps]
    · simp [howner, hoverlaps]

/-- A range inside the word is checked against the earlier ones alone. -/
theorem fault?_of_inside (h : range.Inside) :
    fault? earlier range = earlier.findSome? (conflict? · range) :=
  if_neg fun hlong => InputRange.lt_stop_iff.mp hlong h

theorem fault?_of_not_inside (h : ¬range.Inside) :
    fault? earlier range = some (.outOfRange range) :=
  if_pos (InputRange.lt_stop_iff.mpr h)

theorem fault?_eq_none_iff (hearlier : ∀ q ∈ earlier, q.Inside) :
    fault? earlier range = none ↔ range.Inside ∧ ∀ q ∈ earlier, ¬q.Clashes range := by
  by_cases hrange : range.Inside
  · rw [fault?_of_inside hrange, List.findSome?_eq_none_iff, and_iff_right hrange]
    exact forall₂_congr fun q hq => conflict?_eq_none_iff (hearlier q hq) hrange
  · simp [fault?_of_not_inside hrange, hrange]

theorem fault?_eq_some_iff (hearlier : ∀ q ∈ earlier, q.Inside) :
    fault? earlier range = some e ↔ Fault earlier range e := by
  by_cases hrange : range.Inside
  · rw [fault?_of_inside hrange, List.findSome?_eq_some_iff]
    constructor
    · rintro ⟨before, q, after, rfl, hq, hbefore⟩
      rw [List.forall_mem_append, List.forall_mem_cons] at hearlier
      have hapart : ∀ p ∈ before, ¬p.Clashes range := fun p hp =>
        (conflict?_eq_none_iff (hearlier.1 p hp) hrange).mp (hbefore p hp)
      rcases (conflict?_eq_some_iff hearlier.2.1 hrange).mp hq with
        ⟨howner, rfl⟩ | ⟨howner, hmeets, rfl⟩
      · exact .duplicateOwner hrange rfl hapart howner
      · exact .overlap hrange rfl hapart howner hmeets
    · intro h
      have hnone {before after : List InputRange} {q : InputRange}
          (hsplit : earlier = before ++ q :: after) (hbefore : ∀ p ∈ before, ¬p.Clashes range) :
          q.Inside ∧ ∀ p ∈ before, conflict? p range = none := by
        rw [hsplit, List.forall_mem_append, List.forall_mem_cons] at hearlier
        exact ⟨hearlier.2.1, fun p hp =>
          (conflict?_eq_none_iff (hearlier.1 p hp) hrange).mpr (hbefore p hp)⟩
      cases h with
      | outOfRange hlong => exact absurd hrange hlong
      | duplicateOwner _ hsplit hbefore howner =>
        obtain ⟨hq, hapart⟩ := hnone hsplit hbefore
        exact ⟨_, _, _, hsplit, (conflict?_eq_some_iff hq hrange).mpr (.inl ⟨howner, rfl⟩), hapart⟩
      | overlap _ hsplit hbefore howner hmeets =>
        obtain ⟨hq, hapart⟩ := hnone hsplit hbefore
        exact ⟨_, _, _, hsplit,
          (conflict?_eq_some_iff hq hrange).mpr (.inr ⟨howner, hmeets, rfl⟩), hapart⟩
  · rw [fault?_of_not_inside hrange, Option.some.injEq]
    constructor
    · rintro rfl
      exact .outOfRange hrange
    · intro h
      cases h with
      | outOfRange => rfl
      | duplicateOwner h | overlap h => exact absurd h hrange

/-! ### All of them -/

theorem compatible_nil : Compatible [] := ⟨by simp, by simp, .nil⟩

theorem Compatible.of_append (h : Compatible (earlier ++ ranges)) : Compatible earlier where
  inside r hr := h.inside r (List.mem_append_left _ hr)
  owners := by
    have howners := h.owners
    rw [List.map_append] at howners
    exact (List.nodup_append.mp howners).1
  apart := (List.pairwise_append.mp h.apart).1

/-- One range more is compatible if nothing is wrong with it. -/
theorem compatible_concat (h : Compatible earlier) :
    Compatible (earlier ++ [range]) ↔ fault? earlier range = none := by
  rw [fault?_eq_none_iff h.inside]
  constructor
  · intro hall
    have hinside : range.Inside := hall.inside range (List.mem_append_right _ List.mem_cons_self)
    have howners := hall.owners
    have hmeets := (List.pairwise_append.mp hall.apart).2.2
    rw [List.map_append, List.nodup_append] at howners
    refine ⟨hinside, fun q hq hclash => ?_⟩
    rcases hclash with howner | hmeet
    · exact howners.2.2 q.owner (List.mem_map_of_mem hq) range.owner (by simp) howner
    · exact hmeets q hq range List.mem_cons_self hmeet
  · rintro ⟨hinside, hapart⟩
    refine ⟨?_, ?_, ?_⟩
    · rw [List.forall_mem_append, List.forall_mem_singleton]
      exact ⟨h.inside, hinside⟩
    · rw [List.map_append, List.nodup_append]
      refine ⟨h.owners, by simp, ?_⟩
      rw [List.forall_mem_map]
      intro q hq owner howner heq
      obtain rfl : owner = range.owner := by simpa using howner
      exact hapart q hq (.inl heq)
    · rw [List.pairwise_append]
      refine ⟨h.apart, List.pairwise_singleton _ _, fun q hq r hr hmeet => ?_⟩
      obtain rfl := List.mem_singleton.mp hr
      exact hapart q hq (.inr hmeet)

theorem firstFault?_append (earlier before ranges : List InputRange) :
    firstFault? earlier (before ++ ranges) =
      (firstFault? earlier before).or (firstFault? (earlier ++ before) ranges) := by
  induction before generalizing earlier with
  | nil => simp [firstFault?]
  | cons range before ih =>
    rw [List.cons_append, firstFault?, firstFault?]
    cases fault? earlier range with
    | some e => rfl
    | none => simp [ih]

theorem firstFault?_eq_none_iff (h : Compatible earlier) :
    firstFault? earlier ranges = none ↔ Compatible (earlier ++ ranges) := by
  induction ranges generalizing earlier with
  | nil => simpa [firstFault?] using h
  | cons range rest ih =>
    rw [firstFault?, List.append_cons earlier range rest]
    cases hfault : fault? earlier range with
    | none => exact ih ((compatible_concat h).mpr hfault)
    | some e =>
      refine iff_of_false (by simp) fun hall => ?_
      rw [(compatible_concat h).mp hall.of_append] at hfault
      cases hfault

/-- The error is about the first range that is not compatible with those before it. -/
theorem firstFault?_eq_some_iff (h : Compatible earlier) :
    firstFault? earlier ranges = some e ↔
      ∃ before range after, ranges = before ++ range :: after ∧ Compatible (earlier ++ before) ∧
        Fault (earlier ++ before) range e := by
  constructor
  · intro herror
    induction ranges generalizing earlier with
    | nil => cases herror
    | cons range rest ih =>
      rw [firstFault?] at herror
      cases hfault : fault? earlier range with
      | some e' =>
        rw [hfault] at herror
        obtain rfl : e' = e := Option.some.inj herror
        refine ⟨[], range, rest, rfl, ?_, ?_⟩
        · rwa [List.append_nil]
        · rwa [List.append_nil, ← fault?_eq_some_iff h.inside]
      | none =>
        rw [hfault] at herror
        obtain ⟨before, r, after, rfl, hbefore, hr⟩ := ih ((compatible_concat h).mpr hfault) herror
        rw [← List.append_cons] at hbefore hr
        exact ⟨range :: before, r, after, rfl, hbefore, hr⟩
  · rintro ⟨before, range, after, rfl, hbefore, hfault⟩
    rw [firstFault?_append, (firstFault?_eq_none_iff h).mpr hbefore, Option.none_or, firstFault?,
      (fault?_eq_some_iff hbefore.inside).mpr hfault]

end Check

namespace Allocation

variable {ranges : List InputRange} {e : AllocationError}

theorem compatible (a : Allocation) : Compatible a.ranges :=
  (firstFault?_eq_none_iff compatible_nil).mp a.sound

theorem ofRanges_eq_ok_iff :
    (∃ a, ofRanges ranges = .ok a ∧ a.ranges = ranges) ↔ firstFault? [] ranges = none := by
  unfold ofRanges
  split
  · rename_i hnone
    simp [hnone]
  · rename_i hsome
    simp [hsome]

theorem ofRanges_eq_error_iff :
    ofRanges ranges = .error e ↔ firstFault? [] ranges = some e := by
  unfold ofRanges
  split
  · rename_i hnone
    simp [hnone]
  · rename_i hsome
    simp [hsome]

/-- Ranges make an allocation, which is of these ranges, if and only if each of them lies inside the
word, no owner occurs twice and no two of them have a bit in common.  Otherwise the error is about
the first range that does not go with those before it. -/
theorem ofRanges_decides (ranges : List InputRange) :
    ((∃ a, ofRanges ranges = .ok a ∧ a.ranges = ranges) ↔ Compatible ranges) ∧
      ∀ e, ofRanges ranges = .error e ↔
        ∃ earlier range later, ranges = earlier ++ range :: later ∧ Compatible earlier ∧
          Fault earlier range e := by
  constructor
  · rw [ofRanges_eq_ok_iff, firstFault?_eq_none_iff compatible_nil, List.nil_append]
  · intro e
    rw [ofRanges_eq_error_iff, firstFault?_eq_some_iff compatible_nil]
    simp only [List.nil_append]

/-- A range whose end lies past the last place leaves the word, whoever else owns its bits. -/
example :
    firstFault? [] [⟨.stimulus, 0, 16⟩, ⟨.stimulus, 8, 4294967295⟩] =
      some (.outOfRange ⟨.stimulus, 8, 4294967295⟩) := by
  decide

end Allocation

end PinBench.Gpio
