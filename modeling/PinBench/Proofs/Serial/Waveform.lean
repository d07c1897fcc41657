import Mathlib.Tactic.IntervalCases
import PinBench.Proofs.Serial.Loopback

/-! What a transmitter puts on its line in a whole run, however its ticks and the queueing of bytes
follow each other.

* `Frames` says which frames a run has: when each may start, and which tick starts it.
* `Shows` says what the frames make of the ticks: the level of each, and which byte each has sent.
* `bytes_leave_in_frames` says that no byte is lost or reordered, whatever the times of the ticks,
  and that with ticks no more than a bit apart the line is the one that its frames make. -/

namespace PinBench.Serial

/-! ### Runs -/

/-- All the bytes that are queued in a run. -/
def queuedBytes (events : List LoopbackEvent) : List UInt8 :=
  events.flatMap fun
    | .enqueue bytes => bytes
    | .tick _ => []

/-- A tick of a run: its time, the bytes queued before it since the start of the run, and what it
came to. -/
structure Pulse where
  time : Nat
  queued : List UInt8
  level : Bool
  sent : Option UInt8
  deriving DecidableEq, Repr

namespace Transmitter

def meet (t : Transmitter) : LoopbackEvent → Transmitter
  | .enqueue bytes => t.enqueue bytes
  | .tick now => (t.tick now).1

/-- The transmitter after a run. -/
def after (t : Transmitter) (events : List LoopbackEvent) : Transmitter := events.foldl meet t

/-- The ticks of a run that `queued` has been queued before. -/
def pulses (t : Transmitter) (queued : List UInt8) : List LoopbackEvent → List Pulse
  | [] => []
  | .enqueue bytes :: events => (t.enqueue bytes).pulses (queued ++ bytes) events
  | .tick now :: events =>
    ⟨now, queued, (t.tick now).1.level, (t.tick now).2⟩ :: (t.tick now).1.pulses queued events

/-- The byte of the frame under way. -/
def inFlight (t : Transmitter) : List UInt8 := if t.phase = .idle then [] else [t.current]

/-! ### No byte is lost -/

theorem follow_conserves (t : Transmitter) (now : Nat) :
    (t.follow now).2.toList ++ (t.follow now).1.inFlight ++ (t.follow now).1.pending =
      t.inFlight ++ t.pending := by
  unfold follow
  split
  · rfl
  · rename_i hbusy
    have hphase : t.phase ≠ .idle := fun h => hbusy (.inl h)
    split
    · rfl
    · simp [inFlight, driveData, driveBit, hphase]
    · split <;> simp [inFlight, driveData, driveBit, hphase]
    · simp [inFlight, hphase]

theorem begin_conserves (t : Transmitter) (now : Nat) (hphase : t.phase = .idle) :
    (t.begin now).inFlight ++ (t.begin now).pending = t.pending := by
  simp only [begin]
  split
  · split <;> simp_all [inFlight]
  · simp_all [inFlight]

theorem tick_conserves (t : Transmitter) (now : Nat) :
    (t.tick now).2.toList ++ ((t.tick now).1.inFlight ++ (t.tick now).1.pending) =
      t.inFlight ++ t.pending := by
  rw [← t.follow_conserves now, List.append_assoc]
  simp only [Transmitter.tick]
  congr 1
  split
  · rename_i hidle
    rw [begin_conserves _ now hidle, inFlight, if_pos hidle, List.nil_append]
  · rfl

theorem sent_conserved (t : Transmitter) (queued : List UInt8) (events : List LoopbackEvent) :
    (t.pulses queued events).filterMap (·.sent) ++
        ((t.after events).inFlight ++ (t.after events).pending) =
      t.inFlight ++ t.pending ++ queuedBytes events := by
  induction events generalizing t queued with
  | nil => simp [pulses, after, queuedBytes]
  | cons event events ih =>
    cases event with
    | enqueue bytes =>
      have hrest := ih (t.enqueue bytes) (queued ++ bytes)
      have hwaits : (t.enqueue bytes).inFlight ++ (t.enqueue bytes).pending =
          t.inFlight ++ t.pending ++ bytes := (List.append_assoc _ _ _).symm
      rw [hwaits, List.append_assoc _ bytes] at hrest
      exact hrest
    | tick now =>
      have hrest := ih (t.tick now).1 queued
      have hsent : (t.pulses queued (.tick now :: events)).filterMap (·.sent) =
          (t.tick now).2.toList ++ ((t.tick now).1.pulses queued events).filterMap (·.sent) := by
        cases h : (t.tick now).2 <;> simp [pulses, h]
      have hqueued : queuedBytes (.tick now :: events) = queuedBytes events := rfl
      rw [hsent, hqueued, ← t.tick_conserves now, List.append_assoc, List.append_assoc, ← hrest]
      rfl

end Transmitter

/-! ### Frames -/

/-- The levels of a byte's frame, one for each bit. -/
def frameLevels (byte : UInt8) : List Bool :=
  false :: (List.range 8).map byte.toBitVec.getLsbD ++ [true]

theorem getElem?_frameLevels (byte : UInt8) {k : Nat} (hk : k < frameBits) :
    (frameLevels byte)[k]? = some (slotLevel byte k) := by
  simp only [frameBits] at hk
  interval_cases k <;> rfl

/-- The number of the first of some times that is `due` or later. -/
def firstFrom (times : List Nat) (due : Nat) : Option Nat :=
  times.findIdx? fun time => decide (due ≤ time)

/-- The number of the first tick at time `due` or later that finds byte `k` queued. -/
def firstWith (run : List Pulse) (due : Nat) (k : Nat) : Option Nat :=
  run.findIdx? fun p => decide (due ≤ p.time) && decide (k < p.queued.length)

/-- A frame on the line: the number and the time of the tick with its start edge, and its byte. -/
structure Frame where
  tick : Nat
  edge : Nat
  byte : UInt8
  deriving DecidableEq, Repr

/-- The time at which a frame is over. -/
def Frame.stop (f : Frame) (period : Nat) : Nat := f.edge + frameBits * period

/-- These are the first frames of a run, and the next one is `due` at that time.  The first frame is
due one bit after the first tick, every other one when the frame before it is over.  It starts with
the first tick from then on that finds its byte queued. -/
inductive Frames (period : Nat) (run : List Pulse) : List Frame → Nat → Prop
  | start {due : Nat} (h : ∀ p, run.head? = some p → due = p.time + period) : Frames period run [] due
  | next {frames : List Frame} {due : Nat} {tick : Nat} {p : Pulse} {byte : UInt8}
      (h : Frames period run frames due) (hfirst : firstWith run due frames.length = some tick)
      (htick : run[tick]? = some p) (hbyte : p.queued[frames.length]? = some byte) :
      Frames period run (frames ++ [⟨tick, p.time, byte⟩]) (p.time + frameBits * period)

/-- What the ticks of a run show of its frames. -/
structure Shows (period : Nat) (run : List Pulse) (frames : List Frame) : Prop where
  inside : ∀ n p, run[n]? = some p → ∀ f ∈ frames, f.tick ≤ n → p.time < f.stop period →
    (frameLevels f.byte)[(p.time - f.edge) / period]? = some p.level
  outside : ∀ n p, run[n]? = some p → (∀ f ∈ frames, f.tick ≤ n → f.stop period ≤ p.time) →
    p.level = true
  sent : ∀ n p, run[n]? = some p → ∀ byte, p.sent = some byte ↔
    ∃ f ∈ frames, f.byte = byte ∧ firstFrom (run.map (·.time)) (f.stop period) = some n

/-- The line of a run is the one that its frames make. -/
def Waveform (period : Nat) (run : List Pulse) : Prop :=
  ∃ frames due, Frames period run frames due ∧ firstWith run due frames.length = none ∧
    Shows period run frames

/-! ### One tick -/

section Tick

variable {period : Nat} {frames : List Frame} {queued : List UInt8} {due last now : Nat}
  {t : Transmitter} {run : List Pulse} {p : Pulse}

/-- Where a transmitter stands after a tick at time `last`. -/
inductive Standing (period : Nat) (frames : List Frame) (due last : Nat) (t : Transmitter) : Prop
  /-- All frames are over, and the transmitter may start the next one from time `ready` on. -/
  | resting (ready : Nat) (rests : t.Resting) (readyAt : t.readyAt = some ready)
      (ready_iff : ∀ now, last ≤ now → (ready ≤ now ↔ due ≤ now))
      (finished : ∀ f ∈ frames, f.stop period ≤ last)
  /-- The last frame is under way. -/
  | sending (front : List Frame) (f : Frame) (split : frames = front ++ [f])
      (sends : t.Sending f.edge f.byte last) (next : due = f.stop period)
      (finished : ∀ g ∈ front, g.stop period ≤ f.edge)

/-- What a tick makes of the frames so far, if it is tick number `tick`. -/
inductive Ticked (period : Nat) (frames : List Frame) (queued : List UInt8) (due now : Nat)
    (tick : Nat) (t : Transmitter) : Prop
  /-- No frame starts. -/
  | on (none : ¬(due ≤ now ∧ frames.length < queued.length))
      (standing : Standing period frames due now t) (pending : t.pending = queued.drop frames.length)
  /-- The next frame starts. -/
  | starts (byte : UInt8) (reached : due ≤ now) (byte_eq : queued[frames.length]? = some byte)
      (standing : Standing period (frames ++ [⟨tick, now, byte⟩]) (now + frameBits * period) now t)
      (pending : t.pending = queued.drop (frames.length + 1))

theorem Standing.inside (h : Standing period frames due now t) (hperiod : t.bitPeriod = period)
    {f : Frame} (hf : f ∈ frames) (hun : now < f.stop period) :
    (frameLevels f.byte)[(now - f.edge) / period]? = some t.level := by
  cases h with
  | resting ready rests readyAt ready_iff finished => exact absurd (finished f hf) (Nat.not_le.mpr hun)
  | sending front g split sends next finished =>
    subst split
    have hbegun := sends.begun
    rcases List.mem_append.mp hf with hfront | hlast
    · have := finished f hfront
      omega
    · obtain rfl := List.mem_singleton.mp hlast
      rw [getElem?_frameLevels, sends.level, hperiod]
      refine place_lt ?_
      rw [← hperiod]
      exact sends.unfinished

theorem Standing.outside (h : Standing period frames due now t) (hperiod : t.bitPeriod = period)
    (hover : ∀ f ∈ frames, f.stop period ≤ now) : t.level = true := by
  cases h with
  | resting ready rests readyAt ready_iff finished => exact rests.level
  | sending front g split sends next finished =>
    subst split
    have hun := sends.unfinished
    have hend := hover g (by simp)
    rw [hperiod] at hun
    simp only [Frame.stop] at hend
    omega

/-- A transmitter that looks for work starts the next frame, if it is due and has a byte. -/
theorem ticked_begin {ready : Nat} (ht : t.Resting) (hready : t.readyAt = some ready)
    (hpos : 0 < t.bitPeriod)
    (hiff : ∀ later, now ≤ later → (ready ≤ later ↔ due ≤ later))
    (hover : ∀ f ∈ frames, f.stop period ≤ now)
    (hpending : t.pending = queued.drop frames.length) (tick : Nat) :
    Ticked period frames queued due now tick (t.begin now) := by
  have hgetD : t.readyAt.getD (now + t.bitPeriod) = ready := by rw [hready, Option.getD_some]
  by_cases hstarts : due ≤ now ∧ frames.length < queued.length
  · obtain ⟨hdue, hlt⟩ := hstarts
    rw [List.drop_eq_getElem_cons hlt] at hpending
    have hmay : t.readyAt.getD (now + t.bitPeriod) ≤ now := by
      rw [hgetD]
      exact (hiff now (Nat.le_refl now)).mpr hdue
    obtain ⟨hsending, hrest⟩ := Transmitter.begin_starts hpos hpending hmay
    exact .starts _ hdue (List.getElem?_eq_getElem hlt)
      (.sending frames ⟨tick, now, _⟩ rfl hsending rfl hover) hrest
  · have hwait : t.pending = [] ∨ now < t.readyAt.getD (now + t.bitPeriod) := by
      rcases not_and_or.mp hstarts with hearly | hnone
      · rw [hgetD]
        exact .inr (Nat.lt_of_not_le fun h => hearly ((hiff now (Nat.le_refl now)).mp h))
      · exact .inl (hpending.trans (List.drop_of_length_le (Nat.le_of_not_lt hnone)))
    obtain ⟨hresting, hrest, hat⟩ := ht.begin_rests hwait
    rw [hgetD] at hat
    exact .on hstarts (.resting ready hresting hat hiff hover) (hrest.trans hpending)

/-- One tick: frames follow each other as they are due, and the byte of a frame is sent with the
tick that reaches its end. -/
theorem Standing.tick (h : Standing period frames due last t) (hpos : 0 < period)
    (hperiod : t.bitPeriod = period) (hle : last ≤ now) (hgap : now ≤ last + period)
    (hpending : t.pending = queued.drop frames.length) (tick : Nat) :
    Ticked period frames queued due now tick (t.tick now).1 ∧
      ∀ byte, (t.tick now).2 = some byte ↔
        ∃ f ∈ frames, f.byte = byte ∧ last < f.stop period ∧ f.stop period ≤ now := by
  subst hperiod
  cases h with
  | resting ready rests readyAt ready_iff finished =>
    rw [rests.tick now]
    refine ⟨ticked_begin rests readyAt hpos
      (fun later hlater => ready_iff later (Nat.le_trans hle hlater))
      (fun f hf => Nat.le_trans (finished f hf) hle) hpending tick, fun byte => ?_⟩
    simp only [reduceCtorEq, false_iff]
    rintro ⟨f, hf, -, hlast, -⟩
    exact Nat.not_lt.mpr (finished f hf) hlast
  | sending front f split sends next finished =>
    subst split next
    have hbegun := sends.begun
    by_cases hdone : f.stop t.bitPeriod ≤ now
    · rw [sends.tick_last hgap hdone]
      obtain ⟨-, hresting⟩ := sends.resting_last hgap hdone
      have hun := sends.unfinished
      refine ⟨ticked_begin hresting rfl hpos (fun later hlater => ?_) (fun g hg => ?_) hpending
        tick, fun byte => ?_⟩
      · exact iff_of_true hlater (Nat.le_trans hdone hlater)
      · rcases List.mem_append.mp hg with hfront | hlast
        · exact Nat.le_trans (finished g hfront) (Nat.le_trans hbegun hle)
        · obtain rfl := List.mem_singleton.mp hlast
          exact hdone
      · rw [Option.some.injEq]
        constructor
        · rintro rfl
          refine ⟨f, by simp, rfl, ?_, hdone⟩
          simp only [Frame.stop]
          omega
        · rintro ⟨g, hg, rfl, hlast, -⟩
          rcases List.mem_append.mp hg with hfront | hsame
          · have := finished g hfront
            omega
          · rw [List.mem_singleton.mp hsame]
    · have hun : now - f.edge < frameBits * t.bitPeriod := by
        simp only [Frame.stop] at hdone
        omega
      obtain ⟨hsending, hsent, hrest, hsame⟩ := sends.tick hle hgap hun
      refine ⟨.on (fun hstarts => hdone hstarts.1) (.sending front f rfl hsending rfl finished)
        (hrest.trans hpending), fun byte => ?_⟩
      rw [hsent]
      simp only [reduceCtorEq, false_iff]
      rintro ⟨g, hg, -, hlast, hend⟩
      rcases List.mem_append.mp hg with hfront | hsame
      · have := finished g hfront
        omega
      · rw [List.mem_singleton.mp hsame] at hend
        exact hdone hend

end Tick

/-! ### Whole runs -/

theorem firstFrom_concat (times : List Nat) (time due : Nat) :
    firstFrom (times ++ [time]) due =
      (firstFrom times due).or (if due ≤ time then some times.length else none) := by
  rw [firstFrom, List.findIdx?_append]
  by_cases h : due ≤ time <;> simp [firstFrom, h]

/-- One more tick changes nothing for the ticks before it. -/
theorem firstFrom_concat_of_lt {times : List Nat} {n : Nat} (hn : n < times.length)
    (time due : Nat) : firstFrom (times ++ [time]) due = some n ↔ firstFrom times due = some n := by
  rw [firstFrom_concat]
  cases firstFrom times due with
  | some m => simp
  | none =>
    simp only [Option.none_or, reduceCtorEq, iff_false]
    split
    · exact fun h => Nat.ne_of_gt hn (Option.some.inj h)
    · simp

/-- The last tick is the first one that is late enough if all before it are early. -/
theorem firstFrom_concat_self (times : List Nat) (time due : Nat) :
    firstFrom (times ++ [time]) due = some times.length ↔
      (∀ s ∈ times, s < due) ∧ due ≤ time := by
  rw [firstFrom_concat]
  cases hfirst : firstFrom times due with
  | some m =>
    obtain ⟨hm, hdue, -⟩ := List.findIdx?_eq_some_iff_getElem.mp hfirst
    simp only [Option.some_or, Option.some.injEq]
    refine iff_of_false (Nat.ne_of_lt hm) fun h => ?_
    exact Nat.not_le.mpr (h.1 _ (List.getElem_mem hm)) (of_decide_eq_true hdue)
  | none =>
    have hearly : ∀ s ∈ times, s < due := fun s hs =>
      Nat.lt_of_not_le (of_decide_eq_false (List.findIdx?_eq_none_iff.mp hfirst s hs))
    by_cases h : due ≤ time
    · simpa [h] using hearly
    · simp [h]

theorem firstWith_concat (run : List Pulse) (p : Pulse) (due k : Nat) :
    firstWith (run ++ [p]) due k = (firstWith run due k).or
      (if due ≤ p.time ∧ k < p.queued.length then some run.length else none) := by
  rw [firstWith, List.findIdx?_append]
  by_cases h : due ≤ p.time ∧ k < p.queued.length <;> simp [firstWith, h]

section Run

variable {period : Nat} {frames : List Frame} {queued : List UInt8} {due last now : Nat}
  {t : Transmitter} {run : List Pulse} {p : Pulse}

theorem Frames.concat (h : Frames period run frames due) (hrun : run ≠ []) (p : Pulse) :
    Frames period (run ++ [p]) frames due := by
  induction h with
  | start h =>
    refine .start fun first hfirst => h first ?_
    rwa [List.head?_append_of_ne_nil run hrun] at hfirst
  | @next frames due tick q byte _ hfirst htick hbyte ih =>
    have htick' : (run ++ [p])[tick]? = some q :=
      (List.getElem?_append_left (List.getElem?_eq_some_iff.mp htick).1).trans htick
    refine ih.next ?_ htick' hbyte
    rw [firstWith_concat, hfirst, Option.some_or]

theorem Frames.tick_lt (h : Frames period run frames due) : ∀ f ∈ frames, f.tick < run.length := by
  induction h with
  | start => simp
  | next _ _ htick _ ih =>
    intro f hf
    rcases List.mem_append.mp hf with hf | hf
    · exact ih f hf
    · rw [List.mem_singleton.mp hf]
      exact (List.getElem?_eq_some_iff.mp htick).1

/-- The last tick of a run was at time `last`, and no tick was later. -/
structure Until (run : List Pulse) (last : Nat) : Prop where
  before : ∀ p ∈ run, p.time ≤ last
  reached : ∃ p ∈ run, p.time = last

theorem Until.ne_nil (h : Until run last) : run ≠ [] := by
  obtain ⟨p, hp, -⟩ := h.reached
  exact List.ne_nil_of_mem hp

theorem Until.concat (h : Until run last) (hle : last ≤ p.time) : Until (run ++ [p]) p.time where
  before q hq := by
    rcases List.mem_append.mp hq with hq | hq
    · exact Nat.le_trans (h.before q hq) hle
    · rw [List.mem_singleton.mp hq]
  reached := ⟨p, by simp, rfl⟩

/-- The last tick is the first that is late enough if the one before it is not. -/
theorem Until.firstFrom_concat_self (h : Until run last) (p : Pulse) (due : Nat) :
    firstFrom ((run ++ [p]).map (·.time)) due = some run.length ↔ last < due ∧ due ≤ p.time := by
  have hfirst := Serial.firstFrom_concat_self (run.map (·.time)) p.time due
  rw [List.length_map] at hfirst
  rw [List.map_append, List.map_cons, List.map_nil, hfirst]
  refine and_congr_left fun _ => ⟨fun hearly => ?_, fun hlt time htime => ?_⟩
  · obtain ⟨q, hq, rfl⟩ := h.reached
    exact hearly _ (List.mem_map_of_mem hq)
  · obtain ⟨q, hq, rfl⟩ := List.mem_map.mp htime
    exact Nat.lt_of_le_of_lt (h.before q hq) hlt

theorem Until.firstFrom_concat_of_lt {n : Nat} (hn : n < run.length) (p : Pulse) (due : Nat) :
    firstFrom ((run ++ [p]).map (·.time)) due = some n ↔
      firstFrom (run.map (·.time)) due = some n := by
  rw [List.map_append, List.map_cons, List.map_nil]
  exact Serial.firstFrom_concat_of_lt (by rwa [List.length_map]) _ _

theorem Until.due_le (h : Until run last) {n : Nat}
    (hfirst : firstFrom (run.map (·.time)) due = some n) : due ≤ last := by
  obtain ⟨hn, hdue, -⟩ := List.findIdx?_eq_some_iff_getElem.mp hfirst
  obtain ⟨q, hq, htime⟩ := List.mem_map.mp (List.getElem_mem hn)
  rw [← htime] at hdue
  exact Nat.le_trans (of_decide_eq_true hdue) (h.before q hq)

/-- One more tick, which may start frames of its own. -/
theorem Shows.concat {added : List Frame} (h : Shows period run frames) (huntil : Until run last)
    (hframes : ∀ f ∈ frames, f.tick < run.length)
    (hadded : ∀ f ∈ added, f.tick = run.length ∧ p.time < f.stop period) (hle : last ≤ p.time)
    (hstanding : Standing period (frames ++ added) due p.time t) (hperiod : t.bitPeriod = period)
    (hlevel : p.level = t.level)
    (hsent : ∀ byte, p.sent = some byte ↔
      ∃ f ∈ frames, f.byte = byte ∧ last < f.stop period ∧ f.stop period ≤ p.time) :
    Shows period (run ++ [p]) (frames ++ added) := by
  have hlast {n : Nat} {q : Pulse} (hq : (run ++ [p])[n]? = some q) :
      run[n]? = some q ∧ n < run.length ∨ q = p ∧ n = run.length := by
    rcases Nat.lt_trichotomy n run.length with hlt | rfl | hgt
    · exact .inl ⟨by rwa [List.getElem?_append_left hlt] at hq, hlt⟩
    · rw [List.getElem?_concat_length, Option.some.injEq] at hq
      exact .inr ⟨hq.symm, rfl⟩
    · rw [List.getElem?_eq_none (by simp; omega)] at hq
      cases hq
  refine ⟨fun n q hq f hf htick hun => ?_, fun n q hq hover => ?_, fun n q hq byte => ?_⟩
  · rcases hlast hq with ⟨hq, hn⟩ | ⟨rfl, rfl⟩
    · rcases List.mem_append.mp hf with hf | hf
      · exact h.inside n q hq f hf htick hun
      · have := (hadded f hf).1
        omega
    · rw [hlevel]
      exact hstanding.inside hperiod hf hun
  · rcases hlast hq with ⟨hq, hn⟩ | ⟨rfl, rfl⟩
    · exact h.outside n q hq fun f hf htick => hover f (List.mem_append_left _ hf) htick
    · rw [hlevel]
      refine hstanding.outside hperiod fun f hf => hover f hf ?_
      rcases List.mem_append.mp hf with hf | hf
      · exact Nat.le_of_lt (hframes f hf)
      · exact Nat.le_of_eq (hadded f hf).1
  · rcases hlast hq with ⟨hq, hn⟩ | ⟨rfl, rfl⟩
    · rw [h.sent n q hq byte]
      simp only [Until.firstFrom_concat_of_lt hn, List.mem_append]
      constructor
      · rintro ⟨f, hf, hfound⟩
        exact ⟨f, .inl hf, hfound⟩
      · rintro ⟨f, hf, hbyte, hfirst⟩
        -- A frame that the new tick starts is not over in the run before it.
        refine ⟨f, hf.resolve_right fun hf => ?_, hbyte, hfirst⟩
        have hreached := huntil.due_le hfirst
        have := (hadded f hf).2
        omega
    · rw [hsent byte]
      simp only [huntil.firstFrom_concat_self, List.mem_append]
      constructor
      · rintro ⟨f, hf, hfound⟩
        exact ⟨f, .inl hf, hfound⟩
      · rintro ⟨f, hf, hbyte, hlate, hdue⟩
        exact ⟨f, hf.resolve_right fun hf => Nat.not_lt.mpr hdue (hadded f hf).2, hbyte, hlate, hdue⟩

/-- After the ticks of a run, in which `queued` has been queued, the line so far is the one that its
frames make. -/
structure Sends (period : Nat) (run : List Pulse) (queued : List UInt8) (last : Nat)
    (frames : List Frame) (due : Nat) (t : Transmitter) : Prop where
  bitPeriod : t.bitPeriod = period
  times : Until run last
  frames_eq : Frames period run frames due
  complete : firstWith run due frames.length = none
  shows : Shows period run frames
  standing : Standing period frames due last t
  taken : frames.length ≤ queued.length
  pending : t.pending = queued.drop frames.length

theorem Sends.enqueue (h : Sends period run queued last frames due t) (bytes : List UInt8) :
    Sends period run (queued ++ bytes) last frames due (t.enqueue bytes) where
  bitPeriod := h.bitPeriod
  times := h.times
  frames_eq := h.frames_eq
  complete := h.complete
  shows := h.shows
  standing := by
    cases h.standing with
    | resting ready rests readyAt ready_iff finished =>
      exact .resting ready (rests.enqueue bytes) readyAt ready_iff finished
    | sending front f split sends next finished =>
      exact .sending front f split (sends.enqueue bytes) next finished
  taken := by
    rw [List.length_append]
    exact Nat.le_add_right_of_le h.taken
  pending := by
    rw [List.drop_append_of_le_length h.taken, ← h.pending]
    rfl

theorem Sends.tick (h : Sends period run queued last frames due t) (hpos : 0 < period)
    (hle : last ≤ now) (hgap : now ≤ last + period) :
    ∃ frames' due', Sends period (run ++ [⟨now, queued, (t.tick now).1.level, (t.tick now).2⟩])
      queued now frames' due' (t.tick now).1 := by
  obtain ⟨hticked, hsent⟩ :=
    h.standing.tick hpos h.bitPeriod hle hgap h.pending run.length
  have hperiod : (t.tick now).1.bitPeriod = period := (t.tick_bitPeriod now).trans h.bitPeriod
  have hframes := h.frames_eq.concat h.times.ne_nil
    ⟨now, queued, (t.tick now).1.level, (t.tick now).2⟩
  cases hticked with
  | on hnone standing pending =>
    refine ⟨frames, due, hperiod, h.times.concat hle, hframes, ?_, ?_, standing, h.taken, pending⟩
    · rw [firstWith_concat, h.complete, Option.none_or, if_neg hnone]
    · have hshows : Shows period
          (run ++ [⟨now, queued, (t.tick now).1.level, (t.tick now).2⟩]) (frames ++ []) :=
        h.shows.concat h.times h.frames_eq.tick_lt (by simp) hle
          (by rwa [List.append_nil]) hperiod rfl hsent
      rwa [List.append_nil] at hshows
  | starts byte reached byte_eq standing pending =>
    have hlt : frames.length < queued.length := (List.getElem?_eq_some_iff.mp byte_eq).1
    have hover : now < now + frameBits * period := by
      have : 0 < frameBits * period := Nat.mul_pos (by decide) hpos
      omega
    have hfirst : firstWith (run ++ [⟨now, queued, (t.tick now).1.level, (t.tick now).2⟩]) due
        frames.length = some run.length := by
      rw [firstWith_concat, h.complete, Option.none_or, if_pos ⟨reached, hlt⟩]
    refine ⟨_, _, hperiod, h.times.concat hle,
      hframes.next hfirst List.getElem?_concat_length byte_eq, ?_, ?_, standing,
      by simpa using Nat.succ_le_of_lt hlt, by simpa using pending⟩
    · refine List.findIdx?_eq_none_iff.mpr fun q hq => ?_
      have : q.time ≤ now := (h.times.concat hle).before q hq
      have hearly : ¬now + frameBits * period ≤ q.time := by omega
      rw [decide_eq_false hearly, Bool.false_and]
    · exact h.shows.concat h.times h.frames_eq.tick_lt
        (fun f hf => List.mem_singleton.mp hf ▸ ⟨rfl, hover⟩) hle standing hperiod rfl hsent

end Run

/-- Ticks follow each other without going back in time and with at most `gap` between them. -/
def Paced (gap : Nat) (times : List Nat) : Prop := times.IsChain fun a b => a ≤ b ∧ b ≤ a + gap

instance (gap : Nat) (times : List Nat) : Decidable (Paced gap times) :=
  inferInstanceAs (Decidable (times.IsChain _))

section Whole

variable {period : Nat} {frames : List Frame} {queued : List UInt8} {due last : Nat}
  {t : Transmitter} {run : List Pulse}

theorem Sends.waveform (h : Sends period run queued last frames due t) (hpos : 0 < period)
    (events : List LoopbackEvent) (hpaced : Paced period (last :: tickTimes events)) :
    Waveform period (run ++ t.pulses queued events) := by
  induction events generalizing run queued last frames due t with
  | nil =>
    rw [Transmitter.pulses, List.append_nil]
    exact ⟨frames, due, h.frames_eq, h.complete, h.shows⟩
  | cons event events ih =>
    cases event with
    | enqueue bytes => exact ih (h.enqueue bytes) hpaced
    | tick now =>
      obtain ⟨⟨hle, hgap⟩, hrest⟩ := List.isChain_cons_cons.mp hpaced
      obtain ⟨frames', due', hnext⟩ := h.tick hpos hle hgap
      have hwhole := ih hnext hrest
      rwa [List.append_assoc] at hwhole

/-- The first tick starts no frame, and from one bit after it on the first frame is due. -/
theorem sends_first (ht : t.Resting) (hready : t.readyAt = none) (hperiod : t.bitPeriod = period)
    (hpos : 0 < period) (hpending : t.pending = queued) (now : Nat) :
    Sends period [⟨now, queued, (t.tick now).1.level, (t.tick now).2⟩] queued now []
      (now + period) (t.tick now).1 := by
  subst hperiod hpending
  obtain ⟨hresting, hpending, hat⟩ := ht.begin_first hready hpos now
  rw [ht.tick now]
  refine ⟨t.begin_bitPeriod now, ⟨by simp, _, List.mem_singleton_self _, rfl⟩, .start (by simp),
    ?_, ⟨by simp, ?_, ?_⟩, ?_, Nat.zero_le _, hpending⟩
  · have hearly : ¬now + t.bitPeriod ≤ now := by omega
    simp [firstWith, hearly]
  · intro n p hp _
    obtain rfl := List.mem_singleton.mp (List.mem_of_getElem? hp)
    exact hresting.level
  · intro n p hp byte
    obtain rfl := List.mem_singleton.mp (List.mem_of_getElem? hp)
    simp
  · exact .resting _ hresting hat (fun _ _ => Iff.rfl) (by simp)

theorem waveform_of_fresh (ht : t.Resting) (hready : t.readyAt = none) (hperiod : t.bitPeriod = period)
    (hpos : 0 < period) (hpending : t.pending = queued) (events : List LoopbackEvent)
    (hpaced : Paced period (tickTimes events)) : Waveform period (t.pulses queued events) := by
  induction events generalizing t queued with
  | nil =>
    rw [Transmitter.pulses]
    exact ⟨[], 0, .start (by simp), rfl, ⟨by simp, by simp, by simp⟩⟩
  | cons event events ih =>
    cases event with
    | enqueue bytes =>
      exact ih (ht.enqueue bytes) hready hperiod (congrArg (· ++ bytes) hpending) hpaced
    | tick now => exact (sends_first ht hready hperiod hpos hpending now).waveform hpos events hpaced

end Whole

/-- Whatever is queued when, and at whatever times the ticks come, the bytes that have been sent,
the one whose frame is under way and those that wait are the bytes that have been queued, in order.
If no two ticks are more than a bit apart, the line is the one that the frames of these bytes make.
-/
theorem bytes_leave_in_frames (baudRate : UInt32) (events : List LoopbackEvent) :
    (((Transmitter.idle baudRate).pulses [] events).filterMap (·.sent) ++
        (((Transmitter.idle baudRate).after events).inFlight ++
          ((Transmitter.idle baudRate).after events).pending) = queuedBytes events) ∧
    (1 ≤ bitPeriod baudRate → Paced (bitPeriod baudRate) (tickTimes events) →
      Waveform (bitPeriod baudRate) ((Transmitter.idle baudRate).pulses [] events)) := by
  refine ⟨(Transmitter.idle baudRate).sent_conserved [] events, fun hpos hpaced => ?_⟩
  exact waveform_of_fresh (Transmitter.resting_idle baudRate) rfl rfl hpos rfl events hpaced

/-- Ticks that are up to a whole bit of three nanoseconds apart, some at the same time.  The first
bytes are queued between two ticks at the time at which a frame may start. -/
def unevenTicks : List LoopbackEvent :=
  let tick (i : Nat) : LoopbackEvent := .tick (i / 5 * 9 + [0, 3, 3, 5, 8].getD (i % 5) 0)
  (List.range 2).map tick ++ .enqueue [0x41, 0x5A] ::
    (List.range 40).map (fun i => tick (i + 2)) ++ .enqueue [0x00] ::
    (List.range 20).map fun i => tick (i + 42)

/-- The levels are those of the idle bit and of the first frame, up to its stop bit. -/
theorem bytes_leave_in_frames_unevenTicks :
    (1 ≤ bitPeriod 333333333 ∧ Paced (bitPeriod 333333333) (tickTimes unevenTicks)) ∧
      Waveform (bitPeriod 333333333) ((Transmitter.idle 333333333).pulses [] unevenTicks) ∧
      ((Transmitter.idle 333333333).pulses [] unevenTicks).filterMap (·.sent) =
        [0x41, 0x5A, 0x00] ∧
      (((Transmitter.idle 333333333).pulses [] unevenTicks).take 18).map
          (fun p => (p.time, p.level)) =
        [(0, true), (3, true), (3, false), (5, false), (8, true), (9, false), (12, false),
          (12, false), (14, false), (17, false), (18, false), (21, false), (21, false),
          (23, false), (26, true), (27, false), (30, true), (30, true)] :=
  have hpos : 1 ≤ bitPeriod 333333333 := by decide
  have hpaced : Paced (bitPeriod 333333333) (tickTimes unevenTicks) := by decide +kernel
  ⟨⟨hpos, hpaced⟩, (bytes_leave_in_frames 333333333 unevenTicks).2 hpos hpaced, by decide +kernel,
    by decide +kernel⟩

end PinBench.Serial
