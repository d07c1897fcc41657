import PinBench.Proofs.Bench.Course
import PinBench.Proofs.Bench.Mirror
import PinBench.Proofs.Gpio.Shares
import PinBench.Proofs.Pins.Keeping

/-! The GPIO inputs along a run.  The relay and the counter both change the input word by a read and
a write of the whole of it.  All the same, at every point of a run the word shows the counter's
value in the counter's bits and the levels that were polled last in the observer's bits, and no
other bit is ever high (`inputs_owned`). -/

namespace PinBench

namespace Telemetry.Relay

variable {E M : Type} [Endpoint E] [HardwareModel M]

theorem publish_range (m : Relay E) (now : Time) (leds : Word) :
    (m.publish now leds).range = m.range := by
  apply List.foldlRecOn (motive := fun m' : Relay E => m'.range = m.range)
  · rfl
  · intro m' h i _
    unfold publishBit
    simp only
    split
    · exact h
    · exact h

/-- The levels that the endpoint gives, if it is asked. -/
def polled? (m : Relay E) (now : Time) : Option (List Bool) :=
  if now < m.nextPoll then none else (Endpoint.poll m.endpoint).2

/-- A tick shows the levels that were polled, if any were. -/
theorem tick_eq (m : Relay E) (now : Time) (f : Fixture M) :
    (m.tick now f).1.range = m.range ∧
      (m.tick now f).2 = match m.polled? now with
        | some levels => m.applyInputs levels f
        | none => f := by
  have hinputs : (m.pollInputs now f).1.range = m.range ∧
      (m.pollInputs now f).2 = match m.polled? now with
        | some levels => m.applyInputs levels f
        | none => f := by
    unfold pollInputs polled?
    split
    · exact ⟨rfl, rfl⟩
    · cases hlevels : (Endpoint.poll m.endpoint).2 <;> simp [hlevels, applyInputs]
  have htick : m.tick now f =
      ((m.pollInputs now f).1.publish now ((m.pollInputs now f).2.read .gpioOut),
        (m.pollInputs now f).2) := rfl
  rw [htick]
  refine ⟨?_, hinputs.2⟩
  rw [publish_range, hinputs.1]

end Telemetry.Relay

namespace Bench

variable {M : Type} [HardwareModel M] {around : Surroundings} {config : Config}
  {allocation : Gpio.Allocation} {f : Fixture M} {b c d : Bench M} {schedule : Schedule} {n : Nat}
  {id : SignalId} {mask : Word} {levels : List Bool}

/-! ### What is shown -/

/-- The value of the counter, which is zero if there is none. -/
def counted (b : Bench M) : Word := (b.counter.map (·.value)).getD 0

/-- The relay when it ticks: it has been given the byte that the serial link has just received. -/
def tickingRelay? (b : Bench M) : Option (Telemetry.Relay Telemetry.Server) :=
  b.relay.map fun m =>
    match b.serial.bind (·.lastReceived) with
    | some byte => m.pushByte b.time.now byte
    | none => m

/-- The levels that the relay polls when it ticks, if it polls any. -/
def polled? (b : Bench M) : Option (List Bool) :=
  b.tickingRelay?.bind fun m => m.polled? b.time.now

/-- The bench in an iteration right before its relay ticks. -/
def beforeRelay (b : Bench M) (arrivals : Arrivals) : Bench M :=
  (b.settled arrivals).tickSerial.tickProbe.1

/-- The levels that were polled last before iteration `n`, and none before the first poll that gave
any. -/
def observed (schedule : Schedule) (b : Bench M) : Nat → List Bool
  | 0 => []
  | n + 1 =>
    (((course schedule b n).beforeRelay (schedule n)).polled?).getD (observed schedule b n)

/-- The input word shows the counter's value and `levels`. -/
structure Shared (allocation : Gpio.Allocation) (id : SignalId) (mask : Word) (levels : List Bool)
    (b : Bench M) : Prop where
  port : b.fixture.Port .gpioIn id mask
  relay : ∀ r ∈ b.relay.map (·.range), r = allocation.rangeOf .telemetry
  counter : ∀ r ∈ b.counter.map (·.range), r = allocation.rangeOf .stimulus
  fits : allocation.Fits b.counted
  shows : allocation.Shows mask b.counted levels (b.fixture.word id)

/-- What drives other roles leaves the inputs alone. -/
theorem Shared.frame (h : b.Shared allocation id mask levels) (roles : Role → Prop)
    (hfixture : Fixture.DrivesOnly roles b.fixture c.fixture) (hroles : ¬roles .gpioIn)
    (hrelay : c.relay.map (·.range) = b.relay.map (·.range)) (hcounter : c.counter = b.counter) :
    c.Shared allocation id mask levels where
  port := h.port.of_drives hfixture
  relay := by
    rw [hrelay]
    exact h.relay
  counter := by
    rw [hcounter]
    exact h.counter
  fits := by
    rw [counted, hcounter]
    exact h.fits
  shows := by
    rw [counted, hcounter, h.port.word_of_drives hfixture hroles]
    exact h.shows

/-! ### One iteration -/

omit [HardwareModel M] in
theorem act_range {transport : Transport} {action : Net.ClientAction}
    (h : b.act transport action = .ok c) :
    c.relay.map (·.range) = b.relay.map (·.range) := by
  unfold act at h
  split at h
  · rename_i listener _
    cases hact : listener.act action with
    | error e => simp [hact, Except.map] at h
    | ok l =>
      simp only [hact, Except.map, Except.ok.injEq] at h
      subst h
      cases transport with
      | jtag => rfl
      | telemetry => simp [setListener, Function.comp_def]
  · cases h

omit [HardwareModel M] in
theorem actAll_range (b : Bench M) (actions : List (Transport × Net.ClientAction)) :
    (b.actAll actions).relay.map (·.range) = b.relay.map (·.range) := by
  induction actions generalizing b with
  | nil => rfl
  | cons a actions ih =>
    simp only [actAll, List.foldl_cons]
    cases hact : b.act a.1 a.2 with
    | ok c => exact (ih c).trans (act_range hact)
    | error e => exact ih { b with refused := b.refused ++ [e] }

theorem Shared.settled (h : b.Shared allocation id mask levels) (arrivals : Arrivals) :
    (b.settled arrivals).Shared allocation id mask levels := by
  obtain ⟨probe, relay, refused, hact, -⟩ := actAll_eq b arrivals.actions
  have hacted : (b.actAll arrivals.actions).Shared allocation id mask levels := by
    refine h.frame (fun _ => False) ?_ not_false (actAll_range b _) ?_
    · rw [hact]
      exact .refl
    · rw [hact]
  obtain ⟨fixture, released, hrelease⟩ := releaseReset_eq (b.actAll arrivals.actions)
  have hreleased : (b.actAll arrivals.actions).releaseReset.Shared allocation id mask levels := by
    refine hacted.frame isResetLine (releaseReset_drivesOnly _) (by simp [isResetLine]) ?_ ?_
    · rw [hrelease]
    · rw [hrelease]
  exact
    { port := hreleased.port.eval
      relay := hreleased.relay
      counter := hreleased.counter
      fits := hreleased.fits
      shows := by
        show allocation.Shows mask _ levels (Fixture.word (Fixture.eval _) id)
        rw [hreleased.port.word_eval]
        exact hreleased.shows }

theorem Shared.beforeRelay (h : b.Shared allocation id mask levels) (arrivals : Arrivals) :
    (b.beforeRelay arrivals).Shared allocation id mask levels := by
  have hserial : (b.settled arrivals).tickSerial.Shared allocation id mask levels := by
    obtain ⟨serial, fixture, hserial, hfixture⟩ := tickSerial_frame (b.settled arrivals)
    rw [hserial]
    exact (h.settled arrivals).frame (· = .uartRx) hfixture (by simp) rfl rfl
  obtain ⟨probe, fixture, hprobe, hfixture, -⟩ := tickProbe_eq (b.settled arrivals).tickSerial
  refine hserial.frame Fixture.isProbeLine ?_ (by simp [Fixture.isProbeLine]) ?_ ?_
  · rw [Bench.beforeRelay, hprobe]
    exact hfixture
  · rw [Bench.beforeRelay, hprobe]
  · rw [Bench.beforeRelay, hprobe]

theorem tickRelay_of_some {m : Telemetry.Relay Telemetry.Server} (h : b.tickingRelay? = some m) :
    b.tickRelay = { b with
      relay := some (m.tick b.time.now b.fixture).1
      fixture := (m.tick b.time.now b.fixture).2 } := by
  rw [tickingRelay?, Option.map_eq_some_iff] at h
  obtain ⟨r, hr, rfl⟩ := h
  cases hbyte : b.serial.bind (·.lastReceived) <;> simp only [tickRelay, hr, hbyte]

theorem tickRelay_of_none (h : b.tickingRelay? = none) : b.tickRelay = b := by
  rw [tickingRelay?, Option.map_eq_none_iff] at h
  simp only [tickRelay, h]

/-- The levels that were polled take the place of those that were shown. -/
theorem Shared.tickRelay (h : b.Shared allocation id mask levels) :
    b.tickRelay.Shared allocation id mask (b.polled?.getD levels) := by
  cases hrelay : b.tickingRelay? with
  | none =>
    rw [tickRelay_of_none hrelay, polled?, hrelay]
    exact h
  | some m =>
    have hrange : m.range = allocation.rangeOf .telemetry := by
      rw [tickingRelay?, Option.map_eq_some_iff] at hrelay
      obtain ⟨r, hr, rfl⟩ := hrelay
      have hown : r.range = _ := h.relay r.range (by rw [hr]; rfl)
      split
      · exact hown
      · exact hown
    obtain ⟨hkept, hfixture⟩ := m.tick_eq b.time.now b.fixture
    have hpolled : b.polled? = m.polled? b.time.now := by rw [polled?, hrelay]; rfl
    have hdrives := Fixture.relay_tick_drivesOnly m b.time.now b.fixture
    rw [tickRelay_of_some hrelay, hpolled]
    -- what else a tick does to the relay does not matter
    generalize m.tick b.time.now b.fixture = ticked at hkept hfixture hdrives ⊢
    refine ⟨h.port.of_drives hdrives, ?_, h.counter, h.fits, ?_⟩
    · intro r hr
      rw [Option.map_some, Option.mem_some_iff] at hr
      rw [← hr, hkept, hrange]
    · simp only [hfixture]
      cases m.polled? b.time.now with
      | none => exact h.shows
      | some levels' =>
        simp only [Telemetry.Relay.applyInputs, hrange]
        rw [h.port.word_writeField rfl (allocation.lsb_lt .telemetry)]
        exact h.shows.observe h.fits levels'

theorem Shared.midway (h : b.Shared allocation id mask levels) (arrivals : Arrivals) :
    (b.midway arrivals).1.Shared allocation id mask
      ((b.beforeRelay arrivals).polled?.getD levels) := by
  have hmonitor : (b.midway arrivals).1 =
      { (b.beforeRelay arrivals).tickRelay with
        monitor := ((b.beforeRelay arrivals).tickRelay.monitor.sample
          (b.beforeRelay arrivals).tickRelay.fixture).1 } := rfl
  have hticked := (h.beforeRelay arrivals).tickRelay
  have hsame : Fixture.DrivesOnly (fun _ => False) (b.beforeRelay arrivals).tickRelay.fixture
      (b.beforeRelay arrivals).tickRelay.fixture := .refl
  rw [hmonitor]
  exact hticked.frame _ hsame not_false rfl rfl

omit [HardwareModel M] in
theorem fits_count {k : Gpio.Counter} (hrange : k.range = allocation.rangeOf .stimulus) :
    allocation.Fits k.count.value := by
  intro i hi
  rw [← hrange] at hi
  simp [Gpio.Counter.count, Word.getLsbD_lowMask, Nat.not_lt.mpr hi]

/-- The counter's next value, if it counts, takes the place of the one before. -/
theorem Shared.tickCounter (h : b.Shared allocation id mask levels) {k : Gpio.Counter}
    (hcounter : b.counter = some k) (now : Time) :
    ({ b with
      fixture := (k.tick now b.fixture).2, counter := some (k.tick now b.fixture).1 } :
        Bench M).Shared allocation id mask levels := by
  have hrange : k.range = allocation.rangeOf .stimulus := by
    refine h.counter k.range ?_
    rw [hcounter]
    rfl
  have hcounted : b.counted = k.value := by
    rw [counted, hcounter]
    rfl
  unfold Gpio.Counter.tick
  split
  · have hcount : k.count.range = allocation.rangeOf .stimulus := hrange
    have hfits := fits_count hrange
    have hwrite : Fixture.DrivesOnly (· = .gpioIn) b.fixture
        (b.fixture.writeField .gpioIn k.count.range.lsb k.count.range.width k.count.value) :=
      .writeField .refl _ _ _ _ rfl
    refine ⟨h.port.of_drives hwrite, h.relay, ?_, hfits, ?_⟩
    · intro r hr
      rw [Option.map_some, Option.mem_some_iff] at hr
      rw [← hr, hcount]
    · simp only [hcount]
      rw [h.port.word_writeField rfl (allocation.lsb_lt .stimulus)]
      exact h.shows.count h.fits hfits
  · have hfits := h.fits
    have hshows := h.shows
    rw [hcounted] at hfits hshows
    refine ⟨h.port, h.relay, ?_, hfits, hshows⟩
    intro r hr
    rw [Option.map_some, Option.mem_some_iff] at hr
    rw [← hr, hrange]

theorem Shared.advance (h : b.Shared allocation id mask levels) :
    b.advance.Shared allocation id mask levels := by
  have hclock : ({ b with fixture := b.fixture.drive .clock (!b.time.clock) } : Bench M).Shared
      allocation id mask levels :=
    h.frame (· = .clock) (.drive .refl _ _ rfl) (by decide) rfl rfl
  cases hcounter : b.counter with
  | none =>
    have hadvance : b.advance = { b with
        time := b.time.toggle.advance b.config.timeStep
        fixture := b.fixture.drive .clock (!b.time.clock) } := by
      simp only [Bench.advance, hcounter]
      rfl
    rw [hadvance]
    exact hclock.frame (fun _ => False) .refl not_false rfl rfl
  | some k =>
    have hticked := hclock.tickCounter hcounter (b.time.toggle.advance b.config.timeStep).now
    have hadvance : b.advance = { b with
        time := b.time.toggle.advance b.config.timeStep
        fixture := (k.tick (b.time.toggle.advance b.config.timeStep).now
          (b.fixture.drive .clock (!b.time.clock))).2
        counter := some (k.tick (b.time.toggle.advance b.config.timeStep).now
          (b.fixture.drive .clock (!b.time.clock))).1 } := by
      simp only [Bench.advance, hcounter]
      rfl
    rw [hadvance]
    generalize k.tick (b.time.toggle.advance b.config.timeStep).now
      (b.fixture.drive .clock (!b.time.clock)) = ticked at hticked ⊢
    exact hticked.frame (fun _ => False) .refl not_false rfl rfl

theorem midway_counted (b : Bench M) (arrivals : Arrivals) :
    (b.midway arrivals).1.counted = (b.settled arrivals).counted := by
  obtain ⟨_, _, _, _, _, hexchange⟩ := exchange_frame (b.settled arrivals)
  show (b.settled arrivals).exchange.1.counted = _
  rw [counted, hexchange, counted]

/-! ### Whole runs -/

omit [HardwareModel M] in
theorem startCounter_zero {k : Gpio.Counter} (h : startCounter config allocation f = some k) :
    k.value = 0 ∧ k.range = allocation.rangeOf .stimulus := by
  unfold startCounter at h
  split at h
  · obtain ⟨r, hr, rfl⟩ := Option.map_eq_some_iff.mp h
    exact ⟨rfl, by simp [Gpio.Allocation.rangeOf, hr, Gpio.Counter.start]⟩
  · cases h

omit [HardwareModel M] in
theorem startRelay_range {relay : Option (Telemetry.Relay Telemetry.Server)}
    (h : startRelay around config allocation f = .ok relay) :
    ∀ r ∈ relay.map (·.range), r = allocation.rangeOf .telemetry := by
  rw [startRelay_eq h]
  intro r hr
  split at hr
  · exact (Option.some.inj hr).symm
  · cases hr

theorem Shared.start (h : start around config allocation f = .ok b)
    (hport : f.Port .gpioIn id mask) : b.Shared allocation id mask [] := by
  obtain ⟨serial, probe, relay, recorder, -, -, hrelay, -, heq⟩ := eq_of_start h
  obtain ⟨g, hg, hfirst⟩ := driveFirst_eq config serial.isSome probe.isSome f
  have hbrelay : b.relay = relay := by rw [heq]
  have hbcounter : b.counter = startCounter config allocation f := by rw [heq]
  have hbfixture : b.fixture = driveFirst config serial.isSome probe.isSome f := by rw [heq]
  have hgport := hport.of_drives hg
  have hwrite : Fixture.DrivesOnly (· = .gpioIn) g (g.write .gpioIn 0) := .write _ _ .refl rfl
  have hcleared : (g.write .gpioIn 0).Port .gpioIn id mask := hgport.of_drives hwrite
  have hlow : b.fixture.word id = 0 := by
    have hrest : ¬(Role.gpioIn = .uartRx ∨ Fixture.isProbeLine .gpioIn) := by
      simp [Fixture.isProbeLine]
    have hzero : (0 : Word) &&& mask = 0 := BitVec.zero_and
    rw [hbfixture, hcleared.word_of_drives hfirst hrest, hgport.word_write rfl, hzero]
  have hcounted : b.counted = 0 := by
    rw [counted, hbcounter]
    cases hcounter : startCounter config allocation f with
    | none => rfl
    | some k => exact (startCounter_zero hcounter).1
  refine ⟨?_, ?_, ?_, ?_, ?_⟩
  · rw [hbfixture]
    exact hcleared.of_drives hfirst
  · rw [hbrelay]
    exact startRelay_range hrelay
  · intro r hr
    rw [hbcounter] at hr
    obtain ⟨k, hk, rfl⟩ := Option.map_eq_some_iff.mp hr
    exact (startCounter_zero hk).2
  · intro i hi
    rw [hcounted]
    exact BitVec.getLsbD_zero
  · rw [hcounted, hlow]
    exact allocation.shows_zero mask

theorem shared_course (h : Bench.start around config allocation f = .ok b)
    (hport : f.Port .gpioIn id mask) (schedule : Schedule) (n : Nat) :
    (course schedule b n).Shared allocation id mask (observed schedule b n) := by
  induction n with
  | zero => exact .start h hport
  | succ n ih => exact (ih.midway (schedule n)).advance

/-- After every step of a run the input word shows the counter's value and the levels that were
polled last, each in its owner's bits, as far as the model has those bits.  So the relay leaves
alone every bit that is not the observer's, and the clock and the counter every bit that is not the
counter's. -/
theorem inputs_owned {width : Nat} (h : start around config allocation f = .ok b)
    (hbinding : f.binding? .gpioIn = some ⟨id, Word.lowMask width⟩) (halone : f.Alone .gpioIn id)
    (hkeeps : HardwareModel.Keeps f.model id (Word.lowMask width)) (schedule : Schedule) (n : Nat)
    (c : Bench M) (hc : Reaches schedule b n c) :
    let settled := c.settled (schedule n)
    let middle := (c.midway (schedule n)).1
    let after := (c.turn (schedule n)).1
    (allocation.Shows (Word.lowMask width) c.counted (observed schedule b n) (c.fixture.word id) ∧
      allocation.Shows (Word.lowMask width) settled.counted (observed schedule b n)
        (settled.fixture.word id) ∧
      allocation.Shows (Word.lowMask width) middle.counted (observed schedule b (n + 1))
        (middle.fixture.word id) ∧
      allocation.Shows (Word.lowMask width) after.counted (observed schedule b (n + 1))
        (after.fixture.word id)) ∧
    (∀ j, ¬(allocation.rangeOf .telemetry).Owns j →
      (middle.fixture.word id).getLsbD j = (settled.fixture.word id).getLsbD j) ∧
    (∀ j, ¬(allocation.rangeOf .stimulus).Owns j →
      (after.fixture.word id).getLsbD j = (middle.fixture.word id).getLsbD j) := by
  obtain ⟨rfl, -⟩ := reaches_iff.mp hc
  have hcourse := shared_course h ⟨hbinding, halone, hkeeps⟩ schedule n
  have hsettled := hcourse.settled (schedule n)
  have hmiddle : ((course schedule b n).midway (schedule n)).1.Shared allocation id
      (Word.lowMask width) (observed schedule b (n + 1)) := hcourse.midway (schedule n)
  have hafter : ((course schedule b n).turn (schedule n)).1.Shared allocation id
      (Word.lowMask width) (observed schedule b (n + 1)) := by
    cases hcause : causeAt? schedule b n with
    | none =>
      rw [turn_course_of_none hcause]
      exact hmiddle.advance
    | some cause =>
      rw [turn_course_of_cause hcause]
      exact hmiddle.frame (fun _ => False) .refl not_false rfl rfl
  refine ⟨⟨hcourse.shows, hsettled.shows, hmiddle.shows, hafter.shows⟩, fun j hj => ?_, fun j hj => ?_⟩
  · have hshows := hmiddle.shows
    rw [midway_counted] at hshows
    exact hsettled.shows.agree_of_levels hshows hsettled.fits hj
  · exact hmiddle.shows.agree_of_value hafter.shows hmiddle.fits hafter.fits hj

/-! ### The echoing model -/

omit [HardwareModel M] in
theorem switches_eval (m : Model.EchoSoc) : m.eval.pins.switches = m.pins.switches := by
  have hrest : m.eval.pins.switches = m.evalSerial.pins.switches := rfl
  rw [hrest]
  simp only [Model.EchoSoc.evalSerial]
  split
  · rfl
  · split
    · simp only [Model.EchoSoc.rise]
      cases (m.receiver.tick ((m.cycles + 1) * m.clockPeriod) m.pins.uartRx.isHigh).2 <;> rfl
    · rfl

omit [HardwareModel M] in
theorem keeps_switches (m : Model.EchoSoc) (mask : Word) : HardwareModel.Keeps m 4 mask where
  written k _ value :=
    have hrow : 4 < Model.EchoSoc.table.length := by decide
    StoresWrites.read_write_self k 4 (value &&& mask) hrow
  other k _ other value hne := StoresWrites.read_write_of_ne k other 4 value hne.symm
  eval k _ := switches_eval k

/-- Telemetry and a counter that counts every other iteration. -/
def watched : Config :=
  { Config.standard with telemetry := ⟨true, 8081, 10⟩, stimulus := ⟨true, 20⟩ }

/-- An observer connects right before iteration 0 and sets the first and the third input. -/
def watching : Schedule := fun n =>
  ⟨if n = 0 then
    [(.telemetry, .connect 1),
      (.telemetry, .send 1 (Telemetry.ObserverMessage.inputs [1, 0, 1]).line)]
    else [], false⟩

theorem inputs_owned_watched :
    ∃ b c, start ⟨fun _ _ => true, true, true⟩ watched .standard
        (Fixture.standard .standard) = .ok b ∧
      (Fixture.standard .standard).binding? .gpioIn = some ⟨4, Word.lowMask 32⟩ ∧
      (Fixture.standard .standard).Alone .gpioIn 4 ∧
      HardwareModel.Keeps (Fixture.standard .standard).model 4 (Word.lowMask 32) ∧
      Reaches watching b 3 c ∧ observed watching b 3 = [true, false, true] ∧ c.counted = 1 ∧
      c.fixture.word 4 = 0x50001 ∧
      Gpio.Allocation.standard.Shows (Word.lowMask 32) c.counted (observed watching b 3)
        (c.fixture.word 4) := by
  have hrun : ((start ⟨fun _ _ => true, true, true⟩ watched .standard
      (Fixture.standard Model.EchoSoc.standard)).toOption.map fun b =>
        (observed watching b 3, (course watching b 3).counted, (course watching b 3).fixture.word 4,
          (List.range 3).map (causeAt? watching b))) =
      some ([true, false, true], 1, 0x50001, [none, none, none]) := by
    decide +kernel
  obtain ⟨b, hb, heq⟩ := Option.map_eq_some_iff.mp hrun
  simp only [Prod.mk.injEq] at heq
  obtain ⟨hobserved, hcounted, hword, hcauses⟩ := heq
  have hstart := eq_ok_of_toOption hb
  have hreaches : Reaches watching b 3 (course watching b 3) := reaches_course hcauses
  have hbinding : (Fixture.standard .standard).binding? .gpioIn = some ⟨4, Word.lowMask 32⟩ := rfl
  have halone : (Fixture.standard .standard).Alone .gpioIn 4 := by
    intro other hne _ binding hother hsignal
    rw [Fixture.wired_standard, Option.some.injEq] at hother
    subst hother
    exact hne (Role.index_inj (Fin.ext hsignal))
  have hkeeps := keeps_switches Model.EchoSoc.standard (Word.lowMask 32)
  exact ⟨b, _, hstart, hbinding, halone, hkeeps, hreaches, hobserved, hcounted, hword,
    (inputs_owned hstart hbinding halone hkeeps watching 3 _ hreaches).1.1⟩

end Bench

end PinBench
