import Mathlib.Data.List.Destutter
import PinBench.Proofs.Telemetry.Telling
import PinBench.Telemetry.Relay

/-! What a relay publishes.  A relay may be used in any order: it is handed bytes, it ticks, and
things happen to its endpoint in between.  `Relay.pushes` is the list of all the changes that it has
pushed, and `mirrors_run` says how they mirror the words that its ticks have read: each bit's levels
without repeats, stamped with the times at which they were first seen, the bits of one tick in
ascending order, and the bytes one for one. -/

namespace PinBench.Telemetry

/-! ### Lists without repeats -/

section Destutter

variable {α β : Type} [DecidableEq β] (f : α → β)

theorem destutter'_concat (a b : α) (l : List α) :
    (l ++ [b]).destutter' (fun x y => f x ≠ f y) a =
      l.destutter' (fun x y => f x ≠ f y) a ++ if f (l.getLastD a) = f b then [] else [b] := by
  induction l generalizing a with
  | nil => by_cases h : f a = f b <;> simp [h]
  | cons c l ih =>
    rw [List.cons_append, List.getLastD_cons]
    by_cases h : f a = f c
    · rw [List.destutter'_cons_neg _ (not_not.mpr h), List.destutter'_cons_neg _ (not_not.mpr h), ih]
      cases l with
      | nil => simp [h]
      | cons d l => rw [List.getLastD_cons, List.getLastD_cons]
    · rw [List.destutter'_cons_pos _ h, List.destutter'_cons_pos _ h, ih, List.cons_append]

/-- One more entry stays if it is not like the last one. -/
theorem destutter_concat (b : α) (l : List α) :
    (l ++ [b]).destutter (fun x y => f x ≠ f y) =
      l.destutter (fun x y => f x ≠ f y) ++
        if l.getLast?.map f = some (f b) then [] else [b] := by
  cases l with
  | nil => simp
  | cons a l =>
    rw [List.cons_append, List.destutter_cons', List.destutter_cons', destutter'_concat,
      List.getLast?_cons, List.getLastD_eq_getLast?, Option.map_some]
    simp only [Option.some.injEq]

theorem getLast?_destutter (l : List α) :
    (l.destutter (fun x y => f x ≠ f y)).getLast?.map f = l.getLast?.map f := by
  induction l using List.reverseRecOn with
  | nil => rfl
  | append_singleton l b ih =>
    rw [destutter_concat, List.getLast?_concat]
    split
    · rename_i hlast
      rw [List.append_nil, ih, hlast, Option.map_some]
    · rw [List.getLast?_concat]

end Destutter

/-! ### Changes -/

/-- The change that shows a level of bit `i`. -/
def levelChange (i : Fin ledCount) (level : Time × Bool) : Change :=
  ⟨ledName i.val, if level.2 then 1 else 0, UInt64.ofNat level.1⟩

/-- The change that shows bit `i` of a word. -/
def ledChange (now : Time) (leds : Word) (i : Fin ledCount) : Change :=
  levelChange i (now, leds.getLsbD i.val)

def byteChange (now : Time) (byte : UInt8) : Change :=
  ⟨streamName, byte.toUInt64, UInt64.ofNat now⟩

theorem ledName_inj {i j : Fin ledCount} : ledName i.val = ledName j.val ↔ i = j := by
  revert i j
  decide +kernel

theorem ledName_ne_streamName (i : Fin ledCount) : ledName i.val ≠ streamName := by
  revert i
  decide +kernel

/-- The bits of a word that differ from the last word, which are all of them if there was none. -/
def moved (last : Option Word) (leds : Word) : List (Fin ledCount) :=
  (List.finRange ledCount).filter fun i =>
    last.map (·.getLsbD i.val) ≠ some (leds.getLsbD i.val)

theorem moved_none (leds : Word) : moved none leds = List.finRange ledCount := by
  simp [moved]

theorem moved_pairwise (last : Option Word) (leds : Word) : (moved last leds).Pairwise (· < ·) :=
  (List.pairwise_lt_finRange ledCount).filter _

theorem mem_moved {last : Option Word} {leds : Word} {i : Fin ledCount} :
    i ∈ moved last leds ↔ last.map (·.getLsbD i.val) ≠ some (leds.getLsbD i.val) := by
  simp [moved]

/-- One bit's share of the changes of a tick. -/
theorem filter_ledChange (now : Time) (last : Option Word) (leds : Word) (i : Fin ledCount) :
    ((moved last leds).map (ledChange now leds)).filter (·.channel = ledName i.val) =
      if last.map (·.getLsbD i.val) = some (leds.getLsbD i.val) then [] else
        [ledChange now leds i] := by
  have hchannel : (fun j => decide ((ledChange now leds j).channel = ledName i.val)) = (· == i) := by
    funext j
    rw [ledChange, levelChange, Bool.beq_eq_decide_eq, decide_eq_decide]
    exact ledName_inj
  have hdistinct : (moved last leds).Nodup := (moved_pairwise last leds).imp Fin.ne_of_lt
  rw [List.filter_map]
  show ((moved last leds).filter fun j => decide ((ledChange now leds j).channel = _)).map _ = _
  rw [hchannel, List.filter_beq, hdistinct.count]
  by_cases h : i ∈ moved last leds
  · rw [if_pos h, if_neg (mem_moved.mp h)]
    rfl
  · rw [if_neg h, if_pos (not_not.mp (mt mem_moved.mpr h))]
    rfl

/-! ### What some words amount to -/

/-- The levels of one bit in some words. -/
def levelsOf (i : Fin ledCount) (samples : List (Time × Word)) : List (Time × Bool) :=
  samples.map fun s => (s.1, s.2.getLsbD i.val)

/-- The changes that show some words one after the other, if `last` is the word before them. -/
def mirrored (last : Option Word) : List (Time × Word) → List Change
  | [] => []
  | (now, leds) :: rest => (moved last leds).map (ledChange now leds) ++ mirrored (some leds) rest

theorem mirrored_concat (last : Option Word) (samples : List (Time × Word)) (s : Time × Word) :
    mirrored last (samples ++ [s]) = mirrored last samples ++
      (moved ((samples.getLast?.map (·.2)).or last) s.2).map (ledChange s.1 s.2) := by
  induction samples generalizing last with
  | nil => exact List.append_nil _
  | cons first rest ih =>
    rw [List.cons_append, mirrored, mirrored, ih, List.append_assoc, List.getLast?_cons]
    cases rest.getLast? <;> rfl

theorem filter_mirrored (i : Fin ledCount) (samples : List (Time × Word)) :
    (mirrored none samples).filter (·.channel = ledName i.val) =
      ((levelsOf i samples).destutter fun s t => s.2 ≠ t.2).map (levelChange i) := by
  -- From the back, since the word before decides whether the last one adds a level.
  induction samples using List.reverseRecOn with
  | nil => rfl
  | append_singleton samples s ih =>
    have hlast : (levelsOf i samples).getLast?.map (·.2) =
        (samples.getLast?.map (·.2)).map (·.getLsbD i.val) := by
      rw [levelsOf, List.getLast?_map, Option.map_map, Option.map_map]
      rfl
    have hlevels : levelsOf i (samples ++ [s]) = levelsOf i samples ++ [(s.1, s.2.getLsbD i.val)] :=
      List.map_append
    rw [mirrored_concat, Option.or_none, List.filter_append, ih, filter_ledChange, hlevels,
      destutter_concat (fun s : Time × Bool => s.2), hlast, List.map_append]
    split <;> rfl

/-! ### An endpoint with a ledger -/

/-- An endpoint with a ledger of the changes that it has been given. -/
structure Heard (E : Type) where
  endpoint : E
  pushed : List Change

instance {E : Type} [Endpoint E] : Endpoint (Heard E) where
  register h inputs outputs := { h with endpoint := Endpoint.register h.endpoint inputs outputs }
  poll h := ({ h with endpoint := (Endpoint.poll h.endpoint).1 }, (Endpoint.poll h.endpoint).2)
  push h change := ⟨Endpoint.push h.endpoint change, h.pushed ++ [change]⟩
  close h := { h with endpoint := Endpoint.close h.endpoint }

/-- A use of a relay, or what happens to its endpoint outside of it. -/
inductive Use (E M : Type) where
  | outside (change : E → E)
  | stream (now : Time) (byte : UInt8)
  | tick (now : Time) (f : Fixture M)

/-- The same use of a relay whose endpoint has a ledger. -/
def Use.heard {E M : Type} : Use E M → Use (Heard E) M
  | .outside change => .outside fun h => { h with endpoint := change h.endpoint }
  | .stream now byte => .stream now byte
  | .tick now f => .tick now f

/-- The change that hands on a byte. -/
def Use.streamed? {E M : Type} : Use E M → Option Change
  | .outside _ => none
  | .stream now byte => some (byteChange now byte)
  | .tick _ _ => none

namespace Relay

variable {E M : Type} [Endpoint E] [HardwareModel M] {m : Relay E} {uses : List (Use E M)}

def meet (m : Relay E) : Use E M → Relay E
  | .outside change => { m with endpoint := change m.endpoint }
  | .stream now byte => m.pushByte now byte
  | .tick now f => (m.tick now f).1

def run (m : Relay E) (uses : List (Use E M)) : Relay E := uses.foldl meet m

/-- The relay with a ledger beside its endpoint. -/
def ledgered (m : Relay E) (pushed : List Change) : Relay (Heard E) :=
  { endpoint := ⟨m.endpoint, pushed⟩, range := m.range, pollInterval := m.pollInterval
    nextPoll := m.nextPoll, shown := m.shown }

/-- All the changes that some uses push, in order.  A relay does the same with a ledger as without
(`run_ledgered`). -/
def pushes (m : Relay E) (uses : List (Use E M)) : List Change :=
  ((m.ledgered []).run (uses.map Use.heard)).endpoint.pushed

/-- The output word that a tick at time `now` reads. -/
def seen (m : Relay E) (now : Time) (f : Fixture M) : Word :=
  (m.pollInputs now f).2.read .gpioOut

/-- What a use reads of the output word, and when. -/
def sample? (m : Relay E) : Use E M → Option (Time × Word)
  | .outside _ => none
  | .stream _ _ => none
  | .tick now f => some (now, m.seen now f)

/-- The output words that the ticks among some uses read. -/
def samples (m : Relay E) : List (Use E M) → List (Time × Word)
  | [] => []
  | u :: rest => (m.sample? u).toList ++ (m.meet u).samples rest

/-- The changes that a tick pushes if it reads `leds`. -/
def news (m : Relay E) (now : Time) (leds : Word) : List Change :=
  ((List.finRange ledCount).filter fun i => m.shown.get i ≠ some (leds.getLsbD i.val)).map
    (ledChange now leds)

/-- The changes that a use pushes. -/
def told (m : Relay E) : Use E M → List Change
  | .outside _ => []
  | .stream now byte => [byteChange now byte]
  | .tick now f => m.news now (m.seen now f)

theorem meet_tick (m : Relay E) (now : Time) (f : Fixture M) :
    m.meet (.tick now f) = (m.pollInputs now f).1.publish now (m.seen now f) := by
  simp only [meet, tick, seen]

theorem run_concat (m : Relay E) (uses : List (Use E M)) (u : Use E M) :
    m.run (uses ++ [u]) = (m.run uses).meet u := by
  rw [run, List.foldl_append]
  rfl

theorem samples_concat (m : Relay E) (uses : List (Use E M)) (u : Use E M) :
    m.samples (uses ++ [u]) = m.samples uses ++ ((m.run uses).sample? u).toList := by
  induction uses generalizing m with
  | nil => exact List.append_nil _
  | cons first rest ih =>
    rw [List.cons_append, samples, samples, ih, List.append_assoc]
    rfl

/-! ### The ledger rides along -/

theorem publishBit_of_eq {now : Time} {leds : Word} {i : Fin ledCount}
    (h : m.shown.get i = some (leds.getLsbD i.val)) : publishBit now leds m i = m := if_pos h

theorem publishBit_of_ne {now : Time} {leds : Word} {i : Fin ledCount}
    (h : m.shown.get i ≠ some (leds.getLsbD i.val)) :
    publishBit now leds m i = { m with
      shown := m.shown.set i.val (some (leds.getLsbD i.val)) i.isLt
      endpoint := Endpoint.push m.endpoint (ledChange now leds i) } := if_neg h

theorem publishBit_shown (now : Time) (leds : Word) (m : Relay E) (i j : Fin ledCount) :
    (publishBit now leds m i).shown.get j =
      if j = i then some (leds.getLsbD i.val) else m.shown.get j := by
  by_cases hold : m.shown.get i = some (leds.getLsbD i.val)
  · rw [publishBit_of_eq hold]
    split
    · rename_i hsame
      rw [hsame, hold]
    · rfl
  · rw [publishBit_of_ne hold]
    show (m.shown.set i.val (some (leds.getLsbD i.val)) i.isLt)[j.val] =
      if j = i then some (leds.getLsbD i.val) else m.shown[j.val]
    simp only [Vector.getElem_set, Fin.ext_iff, eq_comm]

theorem publishBit_ledgered (now : Time) (leds : Word) (m : Relay E) (pushed : List Change)
    (i : Fin ledCount) :
    publishBit now leds (m.ledgered pushed) i = (publishBit now leds m i).ledgered (pushed ++
      if m.shown.get i = some (leds.getLsbD i.val) then [] else [ledChange now leds i]) := by
  have hshown : (m.ledgered pushed).shown = m.shown := rfl
  by_cases hold : m.shown.get i = some (leds.getLsbD i.val)
  · rw [publishBit_of_eq hold, publishBit_of_eq (hshown ▸ hold), if_pos hold, List.append_nil]
  · rw [publishBit_of_ne hold, publishBit_of_ne (hshown ▸ hold), if_neg hold]
    rfl

section Bits

variable {bits : List (Fin ledCount)} (now : Time) (leds : Word)

theorem publishBits_keep {j : Fin ledCount} (h : m.shown.get j = some (leds.getLsbD j.val)) :
    (bits.foldl (publishBit now leds) m).shown.get j = some (leds.getLsbD j.val) := by
  apply List.foldlRecOn
    (motive := fun m' : Relay E => m'.shown.get j = some (leds.getLsbD j.val))
  · exact h
  · intro m' h' i _
    rw [publishBit_shown]
    split
    · rename_i hsame
      rw [hsame]
    · exact h'

theorem publishBits_shown {j : Fin ledCount} (hj : j ∈ bits) (m : Relay E) :
    (bits.foldl (publishBit now leds) m).shown.get j = some (leds.getLsbD j.val) := by
  induction bits generalizing m with
  | nil => cases hj
  | cons i bits ih =>
    rw [List.foldl_cons]
    rcases List.mem_cons.mp hj with rfl | hrest
    · apply publishBits_keep
      rw [publishBit_shown, if_pos rfl]
    · exact ih hrest _

theorem publishBits_ledgered (hbits : bits.Nodup) (m : Relay E) (pushed : List Change) :
    bits.foldl (publishBit now leds) (m.ledgered pushed) =
      (bits.foldl (publishBit now leds) m).ledgered
        (pushed ++ (bits.filter fun i => m.shown.get i ≠ some (leds.getLsbD i.val)).map
          (ledChange now leds)) := by
  induction bits generalizing m pushed with
  | nil => rw [List.filter_nil, List.map_nil, List.append_nil, List.foldl_nil, List.foldl_nil]
  | cons i bits ih =>
    obtain ⟨hnew, hrest⟩ := List.nodup_cons.mp hbits
    -- What bit `i` was last shown with does not matter to the bits that follow it.
    have hsame : (bits.filter fun j =>
        (publishBit now leds m i).shown.get j ≠ some (leds.getLsbD j.val)) =
          bits.filter fun j => m.shown.get j ≠ some (leds.getLsbD j.val) := by
      apply List.filter_congr
      intro j hj
      have hne : j ≠ i := by
        rintro rfl
        exact hnew hj
      rw [publishBit_shown, if_neg hne]
    rw [List.foldl_cons, List.foldl_cons, publishBit_ledgered, ih hrest, hsame, List.filter_cons]
    by_cases hold : m.shown.get i = some (leds.getLsbD i.val)
    · simp only [hold, ne_eq, not_true_eq_false, decide_false, if_true, if_false, List.append_nil,
        Bool.false_eq_true]
    · simp only [hold, ne_eq, not_false_eq_true, decide_true, if_true, if_false, List.map_cons,
        List.append_assoc, List.singleton_append]

end Bits

theorem publish_shown (m : Relay E) (now : Time) (leds : Word) (i : Fin ledCount) :
    (m.publish now leds).shown.get i = some (leds.getLsbD i.val) :=
  publishBits_shown now leds (List.mem_finRange i) m

theorem publish_ledgered (m : Relay E) (pushed : List Change) (now : Time) (leds : Word) :
    (m.ledgered pushed).publish now leds =
      (m.publish now leds).ledgered (pushed ++ m.news now leds) :=
  publishBits_ledgered now leds (List.nodup_finRange ledCount) m pushed

theorem pollInputs_ledgered (m : Relay E) (pushed : List Change) (now : Time) (f : Fixture M) :
    (m.ledgered pushed).pollInputs now f =
      ((m.pollInputs now f).1.ledgered pushed, (m.pollInputs now f).2) := by
  have hpoll : Endpoint.poll (m.ledgered pushed).endpoint =
      (⟨(Endpoint.poll m.endpoint).1, pushed⟩, (Endpoint.poll m.endpoint).2) := rfl
  have hnext : (m.ledgered pushed).nextPoll = m.nextPoll := rfl
  unfold pollInputs
  rw [hnext, hpoll]
  split
  · rfl
  · obtain ⟨endpoint, levels⟩ := Endpoint.poll m.endpoint
    cases levels <;> rfl

theorem pollInputs_shown (m : Relay E) (now : Time) (f : Fixture M) :
    (m.pollInputs now f).1.shown = m.shown := by
  unfold pollInputs
  split
  · rfl
  · cases hlevels : (Endpoint.poll m.endpoint).2 <;> simp only [hlevels]

/-- A use does the same with a ledger as without, and what it pushes is in the ledger. -/
theorem meet_ledgered (m : Relay E) (pushed : List Change) (u : Use E M) :
    (m.ledgered pushed).meet u.heard = (m.meet u).ledgered (pushed ++ m.told u) := by
  cases u with
  | outside change =>
    show _ = ledgered _ (pushed ++ [])
    rw [List.append_nil]
    rfl
  | stream now byte => rfl
  | tick now f =>
    have hnews : (m.pollInputs now f).1.news now (m.seen now f) = m.told (.tick now f) := by
      rw [told, news, news, pollInputs_shown]
    have hseen : (m.ledgered pushed).seen now f = m.seen now f := by
      rw [seen, seen, pollInputs_ledgered]
    rw [Use.heard, meet_tick, meet_tick, hseen, pollInputs_ledgered, publish_ledgered, hnews]

theorem run_ledgered (m : Relay E) (uses : List (Use E M)) :
    (m.ledgered []).run (uses.map Use.heard) = (m.run uses).ledgered (m.pushes uses) := by
  induction uses using List.reverseRecOn with
  | nil => rfl
  | append_singleton uses u ih =>
    have hnext : (m.ledgered []).run ((uses ++ [u]).map Use.heard) =
        ((m.run uses).meet u).ledgered (m.pushes uses ++ (m.run uses).told u) := by
      rw [List.map_append, List.map_singleton, run_concat, ih, meet_ledgered]
    rw [pushes, hnext, run_concat]
    rfl

theorem pushes_concat (m : Relay E) (uses : List (Use E M)) (u : Use E M) :
    m.pushes (uses ++ [u]) = m.pushes uses ++ (m.run uses).told u := by
  rw [pushes, List.map_append, List.map_singleton, run_concat, run_ledgered, meet_ledgered]
  rfl

/-! ### The mirror -/

/-- The last word that some uses read. -/
def lastSeen (m : Relay E) (uses : List (Use E M)) : Option Word :=
  (m.samples uses).getLast?.map (·.2)

/-- How the changes that some uses of a relay push mirror the words that they read. -/
structure Mirrors (m : Relay E) (uses : List (Use E M)) : Prop where
  /-- The changes of a bit are the levels that were read of it without repeats, each with the time
  at which it was first read. -/
  levels (i : Fin ledCount) : (m.pushes uses).filter (·.channel = ledName i.val) =
    ((levelsOf i (m.samples uses)).destutter fun s t => s.2 ≠ t.2).map (levelChange i)
  /-- The last value of a bit is the level that was read last. -/
  last (i : Fin ledCount) : (lastChange (m.pushes uses) (ledName i.val)).map (·.value) =
    (m.lastSeen uses).map fun leds => if leds.getLsbD i.val then 1 else 0
  /-- The bytes are pushed one for one, in the order in which they were handed on. -/
  stream : (m.pushes uses).filter (·.channel = streamName) = uses.filterMap Use.streamed?
  /-- The other changes depend on the words that were read and on nothing else. -/
  apart (uses' : List (Use E M)) (hsame : m.samples uses' = m.samples uses) :
    (m.pushes uses').filter (·.channel ≠ streamName) =
      (m.pushes uses).filter (·.channel ≠ streamName)
  /-- The next tick pushes bits in ascending order, and all of them if it is the first. -/
  next (now : Time) (f : Fixture M) : ∃ bits : List (Fin ledCount), bits.Pairwise (· < ·) ∧
    (m.samples uses = [] → bits = List.finRange ledCount) ∧
    m.pushes (uses ++ [.tick now f]) =
      m.pushes uses ++ bits.map (ledChange now ((m.run uses).seen now f))

theorem stream_told (m : Relay E) (u : Use E M) :
    (m.told u).filter (·.channel = streamName) = u.streamed?.toList := by
  cases u with
  | outside change => rfl
  | stream now byte => simp [told, byteChange, Use.streamed?]
  | tick now f =>
    rw [told, news, Use.streamed?, Option.toList_none, List.filter_eq_nil_iff]
    intro change hchange
    obtain ⟨i, -, rfl⟩ := List.mem_map.mp hchange
    rw [decide_eq_true_eq]
    exact ledName_ne_streamName i

section Start

variable (e : E) (range : Gpio.InputRange) (interval : Time) (uses : List (Use E M))

/-- A relay that was just started shows of each bit the level that it read last. -/
theorem run_shown (i : Fin ledCount) :
    ((start e range interval).run uses).shown.get i =
      ((start e range interval).lastSeen uses).map (·.getLsbD i.val) := by
  induction uses using List.reverseRecOn with
  | nil => exact Vector.getElem_replicate _
  | append_singleton uses u ih =>
    rw [run_concat, lastSeen, samples_concat]
    cases u with
    | outside change | stream now byte =>
      rw [sample?, Option.toList_none, List.append_nil]
      exact ih
    | tick now f =>
      rw [sample?, Option.toList_some, List.getLast?_concat, meet_tick, publish_shown]
      rfl

theorem told_tick (now : Time) (f : Fixture M) :
    ((start e range interval).run uses).told (.tick now f) =
      (moved ((start e range interval).lastSeen uses)
          (((start e range interval).run uses).seen now f)).map
        (ledChange now (((start e range interval).run uses).seen now f)) := by
  rw [told, news, moved]
  simp only [run_shown]

/-- The changes of the bits follow from the words that were read. -/
theorem apart_run :
    ((start e range interval).pushes uses).filter (·.channel ≠ streamName) =
      mirrored none ((start e range interval).samples uses) := by
  induction uses using List.reverseRecOn with
  | nil => rfl
  | append_singleton uses u ih =>
    rw [pushes_concat, samples_concat, List.filter_append, ih]
    cases u with
    | outside change =>
      rw [told, sample?, Option.toList_none, List.append_nil, List.filter_nil, List.append_nil]
    | stream now byte =>
      rw [told, sample?, Option.toList_none, List.append_nil]
      exact List.append_nil _
    | tick now f =>
      have hlevels : ∀ change ∈ ((start e range interval).run uses).told (.tick now f),
          decide (change.channel ≠ streamName) = true := by
        intro change hchange
        rw [told_tick, List.mem_map] at hchange
        obtain ⟨i, -, rfl⟩ := hchange
        exact decide_eq_true (ledName_ne_streamName i)
      rw [List.filter_eq_self.mpr hlevels, told_tick, sample?, Option.toList_some, mirrored_concat,
        Option.or_none]
      rfl

theorem levels_run (i : Fin ledCount) :
    ((start e range interval).pushes uses).filter (·.channel = ledName i.val) =
      ((levelsOf i ((start e range interval).samples uses)).destutter fun s t => s.2 ≠ t.2).map
        (levelChange i) := by
  rw [← filter_mirrored, ← apart_run, List.filter_filter]
  apply List.filter_congr
  intro change _
  have hother : change.channel = ledName i.val → change.channel ≠ streamName := by
    intro h
    rw [h]
    exact ledName_ne_streamName i
  rw [Bool.eq_iff_iff]
  simpa using hother

theorem lastChange_run (i : Fin ledCount) :
    (lastChange ((start e range interval).pushes uses) (ledName i.val)).map (·.value) =
      ((start e range interval).lastSeen uses).map fun leds =>
        if leds.getLsbD i.val then 1 else 0 := by
  have hlast := getLast?_destutter (fun s : Time × Bool => s.2)
    (levelsOf i ((start e range interval).samples uses))
  rw [levelsOf, List.getLast?_map, Option.map_map] at hlast
  have hvalues := congrArg (Option.map fun level => if level then (1 : UInt64) else 0) hlast
  rw [Option.map_map, Option.map_map] at hvalues
  rw [lastChange, levels_run, List.getLast?_map, Option.map_map, lastSeen, Option.map_map]
  exact hvalues

theorem stream_run :
    ((start e range interval).pushes uses).filter (·.channel = streamName) =
      uses.filterMap Use.streamed? := by
  induction uses using List.reverseRecOn with
  | nil => rfl
  | append_singleton uses u ih =>
    rw [pushes_concat, List.filter_append, ih, stream_told, List.filterMap_append]
    cases u <;> rfl

/-- The law of what a relay publishes, whatever happens to it after it was started. -/
theorem mirrors_run : (start e range interval).Mirrors uses where
  levels := levels_run e range interval uses
  last := lastChange_run e range interval uses
  stream := stream_run e range interval uses
  apart uses' hsame := by rw [apart_run, apart_run, hsame]
  next now f := by
    refine ⟨moved ((start e range interval).lastSeen uses)
      (((start e range interval).run uses).seen now f), moved_pairwise _ _, ?_, ?_⟩
    · intro hnone
      rw [lastSeen, hnone]
      exact moved_none _
    · rw [pushes_concat, told_tick]

end Start

end Relay

end PinBench.Telemetry
