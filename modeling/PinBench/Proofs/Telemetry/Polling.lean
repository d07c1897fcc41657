import PinBench.Model.WireTable
import PinBench.Proofs.Serial.Script
import PinBench.Proofs.Telemetry.Publishing

/-! How often a relay asks its endpoint.  A tick asks exactly if none has asked before or the last
one that did is an interval ago (`Paced`).  So the ticks that ask are at least an interval apart and
no more of them fit into a stretch of time than that allows, and on an even grid every so many ticks
asks (`polls_on_cadence`).  That a tick asks is told by a meter on the endpoint, which counts how
often it is polled. -/

namespace PinBench.Telemetry

/-! ### Ticks that keep a pace -/

/-- The times of those ticks that ask. -/
def polls (ticks : List (Time × Bool)) : List Time := (ticks.filter (·.2)).map (·.1)

/-- Each tick asks if and only if none before it has asked, or the last one that did was at least an
interval earlier. -/
def Paced (interval : Time) (ticks : List (Time × Bool)) : Prop :=
  ∀ before now asked after, ticks = before ++ (now, asked) :: after →
    (asked = true ↔ ∀ last ∈ (polls before).getLast?, last + interval ≤ now)

section Paced

variable {interval now a b step n : Nat} {asked : Bool} {ticks : List (Time × Bool)}

theorem polls_concat (ticks : List (Time × Bool)) (now : Time) (asked : Bool) :
    polls (ticks ++ [(now, asked)]) = polls ticks ++ if asked then [now] else [] := by
  rw [polls, List.filter_append, List.map_append]
  cases asked <;> rfl

theorem paced_nil (interval : Time) : Paced interval [] := by
  intro before now asked after h
  exact absurd h.symm (List.append_ne_nil_of_right_ne_nil _ (List.cons_ne_nil _ _))

theorem paced_concat_iff : Paced interval (ticks ++ [(now, asked)]) ↔
    Paced interval ticks ∧
      (asked = true ↔ ∀ last ∈ (polls ticks).getLast?, last + interval ≤ now) := by
  constructor
  · intro h
    refine ⟨fun before t x after heq => ?_, h ticks now asked [] rfl⟩
    refine h before t x (after ++ [(now, asked)]) ?_
    rw [heq, List.append_assoc, List.cons_append]
  · rintro ⟨h, hasked⟩ before t x after heq
    rcases List.eq_nil_or_concat after with rfl | ⟨after, y, rfl⟩
    · obtain ⟨rfl, hsame⟩ := List.append_inj' heq rfl
      rw [List.singleton_inj, Prod.mk.injEq] at hsame
      obtain ⟨rfl, rfl⟩ := hsame
      exact hasked
    · rw [List.concat_eq_append, ← List.cons_append, ← List.append_assoc] at heq
      exact h before t x after (List.append_inj' heq rfl).1

/-- Any two ticks that ask are at least an interval apart. -/
theorem Paced.spaced (h : Paced interval ticks) :
    (polls ticks).Pairwise fun p q => p + interval ≤ q := by
  induction ticks using List.reverseRecOn with
  | nil => exact .nil
  | append_singleton ticks tick ih =>
    obtain ⟨now, asked⟩ := tick
    obtain ⟨hbefore, hasked⟩ := paced_concat_iff.mp h
    have hspaced := ih hbefore
    rw [polls_concat]
    cases asked with
    | false => simpa using hspaced
    | true =>
      have hlast := hasked.mp rfl
      rw [if_pos rfl, List.pairwise_append]
      refine ⟨hspaced, List.pairwise_singleton _ _, fun p hp q hq => ?_⟩
      rw [List.mem_singleton.mp hq]
      -- It is enough to look at the last of the polls: those before it are even earlier.
      rcases List.eq_nil_or_concat (polls ticks) with hnil | ⟨earlier, last, hpolls⟩
      · rw [hnil] at hp
        cases hp
      · rw [List.concat_eq_append] at hpolls
        rw [hpolls] at hp hlast hspaced
        have hnow : last + interval ≤ now := hlast last (by rw [List.getLast?_concat]; rfl)
        rcases List.mem_append.mp hp with hearlier | hsame
        · have hgap : p + interval ≤ last :=
            (List.pairwise_append.mp hspaced).2.2 p hearlier last List.mem_cons_self
          exact Nat.le_trans hgap (Nat.le_trans (Nat.le_add_right last interval) hnow)
        · rw [List.mem_singleton.mp hsame]
          exact hnow

/-- So many times fit between two others. -/
theorem length_le_of_spaced {times : List Nat} (hpos : 0 < interval)
    (hspaced : times.Pairwise fun p q => p + interval ≤ q)
    (hwithin : ∀ t ∈ times, a ≤ t ∧ t ≤ b) : times.length ≤ (b - a) / interval + 1 := by
  induction times generalizing a with
  | nil => exact Nat.zero_le _
  | cons first rest ih =>
    obtain ⟨hfirst, hrest⟩ := List.pairwise_cons.mp hspaced
    obtain ⟨ha, -⟩ := hwithin first List.mem_cons_self
    have hlater : ∀ t ∈ rest, first + interval ≤ t ∧ t ≤ b := fun t ht =>
      ⟨hfirst t ht, (hwithin t (List.mem_cons_of_mem _ ht)).2⟩
    rw [List.length_cons, Nat.add_le_add_iff_right]
    cases rest with
    | nil => exact Nat.zero_le _
    | cons second rest =>
      have hroom : a + interval ≤ b := by
        have := hlater second List.mem_cons_self
        omega
      calc (second :: rest).length
          ≤ (b - (first + interval)) / interval + 1 := ih hrest hlater
        _ ≤ (b - a - interval) / interval + 1 :=
          Nat.add_le_add_right (Nat.div_le_div_right (by omega)) 1
        _ = (b - a) / interval := (Nat.div_eq_sub_div hpos (by omega)).symm

/-- The last multiple of a number below `n`. -/
theorem exists_getLast?_multiples {c : Nat} (hc : 0 < c) (hn : 0 < n) :
    ∃ j, ((List.range n).filter (c ∣ ·)).getLast? = some j ∧ c ∣ j ∧ j < n ∧ n ≤ j + c := by
  induction n, hn using Nat.le_induction with
  | base => exact ⟨0, by simp, Nat.dvd_zero c, Nat.zero_lt_one, by omega⟩
  | succ n hn ih =>
    rw [List.range_succ, List.filter_append]
    by_cases hdvd : c ∣ n
    · exact ⟨n, by simp [hdvd], hdvd, Nat.lt_succ_self n, by omega⟩
    · obtain ⟨j, hlast, hj, hlt, hle⟩ := ih
      have hne : n ≠ j + c := by
        rintro rfl
        exact hdvd (Nat.dvd_add hj (Nat.dvd_refl c))
      exact ⟨j, by simpa [hdvd] using hlast, hj, Nat.lt_succ_of_lt hlt, by omega⟩

/-- An interval has passed on an even grid since the last multiple of the steps in it if the next
multiple is reached. -/
theorem add_le_iff_dvd {c j : Nat} (hc : ∀ d, c ≤ d ↔ interval ≤ d * step) (hj : c ∣ j)
    (hlt : j < n) (hle : n ≤ j + c) : a + j * step + interval ≤ a + n * step ↔ c ∣ n := by
  obtain ⟨d, rfl⟩ := Nat.exists_eq_add_of_le (Nat.le_of_lt hlt)
  have hpos : 0 < d := by omega
  have hmultiple : c ∣ d ↔ c ≤ d := by
    refine ⟨Nat.le_of_dvd hpos, fun hd => ?_⟩
    obtain rfl : d = c := by omega
    exact Nat.dvd_refl d
  rw [Nat.dvd_add_right hj, hmultiple, hc, Nat.add_mul]
  omega

/-- On an even grid those ticks ask whose number is a multiple of the steps in an interval. -/
theorem Paced.eq_of_grid (h : Paced interval ticks) (hpos : 0 < interval) (hstep : 0 < step)
    (hgrid : ticks.map (·.1) = (List.range n).map fun k => a + k * step) :
    ticks = (List.range n).map fun k =>
      (a + k * step, decide (Serial.ticksFor step interval ∣ k)) := by
  have hcount : 0 < Serial.ticksFor step interval := by
    rw [Serial.lt_ticksFor_iff hstep, Nat.zero_mul]
    exact hpos
  have hsteps : ∀ d, Serial.ticksFor step interval ≤ d ↔ interval ≤ d * step := fun d => by
    rw [← Nat.not_lt, Serial.lt_ticksFor_iff hstep, Nat.not_lt]
  induction n generalizing ticks with
  | zero => exact List.map_eq_nil_iff.mp hgrid
  | succ n ih =>
    rw [List.range_succ, List.map_append, List.map_eq_append_iff] at hgrid
    obtain ⟨earlier, tick, rfl, hearlier, htick⟩ := hgrid
    obtain ⟨⟨now, asked⟩, rfl, hnow : now = a + n * step⟩ := List.map_eq_singleton_iff.mp htick
    obtain ⟨hpaced, hasked⟩ := paced_concat_iff.mp h
    have hbefore := ih hpaced hearlier
    have hpolls : polls earlier = ((List.range n).filter (Serial.ticksFor step interval ∣ ·)).map
        fun k => a + k * step := by
      rw [hbefore, polls, List.filter_map, List.map_map]
      rfl
    have hwhen : asked = true ↔ Serial.ticksFor step interval ∣ n := by
      rw [hasked, hpolls, List.getLast?_map, hnow]
      rcases Nat.eq_zero_or_pos n with rfl | hn
      · simp
      · obtain ⟨j, hlast, hj, hlt, hle⟩ := exists_getLast?_multiples hcount hn
        rw [hlast]
        simpa using add_le_iff_dvd hsteps hj hlt hle
    rw [List.range_succ, List.map_append, ← hbefore, hnow, List.map_singleton,
      Bool.eq_iff_iff.mpr (hwhen.trans (decide_eq_true_iff).symm)]

end Paced

/-! ### An endpoint with a meter -/

/-- An endpoint with a count of how often it has been polled. -/
structure Metered (E : Type) where
  endpoint : E
  count : Nat

instance {E : Type} [Endpoint E] : Endpoint (Metered E) where
  register e inputs outputs := { e with endpoint := Endpoint.register e.endpoint inputs outputs }
  poll e := (⟨(Endpoint.poll e.endpoint).1, e.count + 1⟩, (Endpoint.poll e.endpoint).2)
  push e change := { e with endpoint := Endpoint.push e.endpoint change }
  close e := { e with endpoint := Endpoint.close e.endpoint }

namespace Relay

variable {E M : Type} [Endpoint E] [HardwareModel M]

/-- The relay with a meter on its endpoint. -/
def metered (m : Relay E) (count : Nat) : Relay (Metered E) :=
  { endpoint := ⟨m.endpoint, count⟩, range := m.range, pollInterval := m.pollInterval
    nextPoll := m.nextPoll, shown := m.shown }

/-- Whether a tick polls the endpoint, by the meter.  A relay does the same with a meter as without,
and a tick polls once or not at all (`tick_metered`). -/
def asks (m : Relay E) (now : Time) (f : Fixture M) : Bool :=
  ((m.metered 0).tick now f).1.endpoint.count != 0

/-- The time of a tick and whether it polls the endpoint. -/
def ticked? (m : Relay E) : Use E M → Option (Time × Bool)
  | .outside _ => none
  | .stream _ _ => none
  | .tick now f => some (now, m.asks now f)

/-- The ticks among some uses. -/
def ticks (m : Relay E) : List (Use E M) → List (Time × Bool)
  | [] => []
  | u :: rest => (m.ticked? u).toList ++ (m.meet u).ticks rest

theorem ticks_concat (m : Relay E) (uses : List (Use E M)) (u : Use E M) :
    m.ticks (uses ++ [u]) = m.ticks uses ++ ((m.run uses).ticked? u).toList := by
  induction uses generalizing m with
  | nil => exact List.append_nil _
  | cons first rest ih =>
    rw [List.cons_append, ticks, ticks, ih, List.append_assoc]
    rfl

/-! ### When a tick polls -/

section Tick

variable (m : Relay E) (count : Nat) (now : Time) (f : Fixture M)

theorem publish_metered (leds : Word) :
    (m.metered count).publish now leds = (m.publish now leds).metered count := by
  refine List.foldl_hom (fun m : Relay E => m.metered count) fun m i => ?_
  by_cases hold : m.shown.get i = some (leds.getLsbD i.val)
  · rw [publishBit_of_eq hold, publishBit_of_eq (m := m.metered count) hold]
  · rw [publishBit_of_ne hold, publishBit_of_ne (m := m.metered count) hold]
    rfl

theorem pollInputs_metered : (m.metered count).pollInputs now f =
    ((m.pollInputs now f).1.metered (if now < m.nextPoll then count else count + 1),
      (m.pollInputs now f).2) := by
  have hpoll : Endpoint.poll (m.metered count).endpoint =
      (⟨(Endpoint.poll m.endpoint).1, count + 1⟩, (Endpoint.poll m.endpoint).2) := rfl
  have hnext : (m.metered count).nextPoll = m.nextPoll := rfl
  unfold pollInputs
  rw [hnext, hpoll]
  by_cases hearly : now < m.nextPoll
  · simp only [if_pos hearly]
  · simp only [if_neg hearly]
    obtain ⟨endpoint, levels⟩ := Endpoint.poll m.endpoint
    cases levels <;> rfl

/-- A tick does the same with a meter as without. -/
theorem tick_metered : (m.metered count).tick now f =
    ((m.tick now f).1.metered (if now < m.nextPoll then count else count + 1),
      (m.tick now f).2) := by
  simp only [tick, pollInputs_metered, publish_metered]

theorem asks_eq : m.asks now f = decide (m.nextPoll ≤ now) := by
  rw [asks, tick_metered]
  by_cases hearly : now < m.nextPoll
  · rw [if_pos hearly, decide_eq_false (Nat.not_le.mpr hearly)]
    rfl
  · rw [if_neg hearly, decide_eq_true (Nat.not_lt.mp hearly)]
    rfl

theorem publish_deadline (leds : Word) : (m.publish now leds).nextPoll = m.nextPoll ∧
    (m.publish now leds).pollInterval = m.pollInterval := by
  apply List.foldlRecOn (motive := fun m' : Relay E =>
    m'.nextPoll = m.nextPoll ∧ m'.pollInterval = m.pollInterval)
  · exact ⟨rfl, rfl⟩
  · intro m' h i _
    rw [publishBit]
    split <;> exact h

/-- A tick that polls sets the deadline anew, and no other does. -/
theorem tick_deadline : (m.tick now f).1.nextPoll =
    (if m.asks now f then now.after m.pollInterval else m.nextPoll) ∧
      (m.tick now f).1.pollInterval = m.pollInterval := by
  obtain ⟨hnext, hinterval⟩ :=
    (m.pollInputs now f).1.publish_deadline now ((m.pollInputs now f).2.read .gpioOut)
  rw [tick, hnext, hinterval, asks_eq, pollInputs]
  by_cases hearly : now < m.nextPoll
  · rw [if_pos hearly, if_neg (by simpa using hearly)]
    exact ⟨rfl, rfl⟩
  · rw [if_neg hearly, if_pos (by simpa using hearly)]
    cases hlevels : (Endpoint.poll m.endpoint).2 <;> simp only [hlevels] <;> trivial

end Tick

/-! ### Every tick -/

/-- What a relay remembers of its ticks. -/
structure Pacing (interval : Time) (ticks : List (Time × Bool)) (m : Relay E) : Prop where
  paced : Paced interval ticks
  pollInterval : m.pollInterval = interval
  /-- The deadline is an interval after the last poll. -/
  nextPoll : m.nextPoll = ((polls ticks).getLast?.map (·.after interval)).getD 0

theorem Pacing.asks_iff {interval : Time} {ticks : List (Time × Bool)} {m : Relay E}
    (h : Pacing interval ticks m) {now : Time} (f : Fixture M) (hnow : now < Time.latest) :
    m.asks now f = true ↔ ∀ last ∈ (polls ticks).getLast?, last + interval ≤ now := by
  rw [asks_eq, decide_eq_true_iff, h.nextPoll]
  cases (polls ticks).getLast? with
  | none => simp
  | some last =>
    rw [Option.map_some, Option.getD_some, Time.after_le_iff hnow]
    simp

/-- The step lemma: a use keeps the pace. -/
theorem Pacing.meet {interval : Time} {ticks : List (Time × Bool)} {m : Relay E}
    (h : Pacing interval ticks m) (u : Use E M)
    (hearly : ∀ tick ∈ m.ticked? u, tick.1 < Time.latest) :
    Pacing interval (ticks ++ (m.ticked? u).toList) (m.meet u) := by
  cases u with
  | outside change | stream now byte =>
    rw [ticked?, Option.toList_none, List.append_nil]
    exact ⟨h.paced, h.pollInterval, h.nextPoll⟩
  | tick now f =>
    have hnow : now < Time.latest := hearly (now, m.asks now f) rfl
    obtain ⟨hdeadline, hinterval⟩ := m.tick_deadline now f
    refine ⟨paced_concat_iff.mpr ⟨h.paced, h.asks_iff f hnow⟩, ?_, ?_⟩
    · exact hinterval.trans h.pollInterval
    · show (m.tick now f).1.nextPoll = _
      rw [hdeadline, h.pollInterval, ticked?, Option.toList_some, polls_concat]
      cases m.asks now f with
      | false =>
        rw [if_neg Bool.false_ne_true, if_neg Bool.false_ne_true, List.append_nil, h.nextPoll]
      | true =>
        rw [if_pos rfl, if_pos rfl, List.getLast?_concat]
        rfl

section Start

variable (endpoint : E) (range : Gpio.InputRange) (pollInterval : Time) (uses : List (Use E M))

/-- Every run of a relay that was just started keeps the pace. -/
theorem pacing_run
    (hearly : ∀ tick ∈ (start endpoint range pollInterval).ticks uses, tick.1 < Time.latest) :
    Pacing (max pollInterval 1) ((start endpoint range pollInterval).ticks uses)
      ((start endpoint range pollInterval).run uses) := by
  induction uses using List.reverseRecOn with
  | nil => exact ⟨paced_nil _, rfl, rfl⟩
  | append_singleton uses u ih =>
    rw [ticks_concat] at hearly ⊢
    rw [run_concat]
    refine (ih fun tick htick => hearly tick (List.mem_append_left _ htick)).meet u ?_
    exact fun tick htick => hearly tick (List.mem_append_right _ (Option.mem_toList.mpr htick))

/-- How often a relay polls, whatever happens to it after it was started.  The first tick polls; any
two polls are at least an interval apart; no tick that comes an interval or more after the latest
poll goes without one; so from `a` to `b` there is at most one poll more than intervals fit in; and
the ticks of an even grid poll when their number is a multiple of the steps that an interval
takes. -/
theorem polls_on_cadence
    (hearly : ∀ tick ∈ (start endpoint range pollInterval).ticks uses, tick.1 < Time.latest) :
    let ticks := (start endpoint range pollInterval).ticks uses
    let interval := max pollInterval 1
    (∀ first ∈ ticks.head?, first.2 = true) ∧
    (polls ticks).Pairwise (fun p q => p + interval ≤ q) ∧
    (∀ before now asked after, ticks = before ++ (now, asked) :: after →
      ∀ last ∈ (polls before).getLast?, last + interval ≤ now → asked = true) ∧
    (∀ a b : Nat, ((polls ticks).filter fun t => a ≤ t ∧ t ≤ b).length ≤ (b - a) / interval + 1) ∧
    (∀ a step n : Nat, 0 < step → ticks.map (·.1) = (List.range n).map (fun k => a + k * step) →
      ticks = (List.range n).map fun k =>
        (a + k * step, decide ((interval + (step - 1)) / step ∣ k))) := by
  intro ticks interval
  have hpaced : Paced interval ticks := (pacing_run endpoint range pollInterval uses hearly).paced
  have hpos : 0 < interval := Nat.le_max_right pollInterval 1
  have hspaced := hpaced.spaced
  refine ⟨fun first hfirst => ?_, hspaced, fun before now asked after hsplit last hlast hdue => ?_,
    fun a b => ?_, fun a step n hstep hgrid => hpaced.eq_of_grid hpos hstep hgrid⟩
  · obtain ⟨rest, hticks⟩ := List.head?_eq_some_iff.mp hfirst
    exact (hpaced [] first.1 first.2 rest hticks).mpr fun last hlast => by cases hlast
  · refine (hpaced before now asked after hsplit).mpr fun last' hlast' => ?_
    rw [Option.mem_unique hlast' hlast]
    exact hdue
  · refine length_le_of_spaced hpos (hspaced.filter _) fun t ht => ?_
    simpa using (List.mem_filter.mp ht).2

end Start

/-- Four ticks of a model without signals, ten nanoseconds apart. -/
def fourTicks : List (Use Recording Model.WireTable) :=
  [0, 10, 20, 30].map fun now => .tick now ⟨.plain [], Vector.replicate _ none⟩

/-- An interval of 25 ns takes three steps of ten: the first and the fourth tick poll. -/
theorem polls_on_cadence_fourTicks :
    (∀ tick ∈ (start Recording.empty ⟨.telemetry, 0, 1⟩ 25).ticks fourTicks, tick.1 < Time.latest) ∧
    (start Recording.empty ⟨.telemetry, 0, 1⟩ 25).ticks fourTicks =
      [(0, true), (10, false), (20, false), (30, true)] := by
  have hearly : ∀ tick ∈ (start Recording.empty ⟨.telemetry, 0, 1⟩ 25).ticks fourTicks,
      tick.1 < Time.latest := by
    decide +kernel
  obtain ⟨-, -, -, -, hgrid⟩ :=
    polls_on_cadence Recording.empty ⟨.telemetry, 0, 1⟩ 25 fourTicks hearly
  exact ⟨hearly, hgrid 0 10 4 (by decide) (by decide +kernel)⟩

end Relay

end PinBench.Telemetry
