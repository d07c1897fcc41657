import PinBench.Proofs.Bench.Course
import PinBench.Proofs.Bench.Mirror
import PinBench.Proofs.Wave.Replay

/-! The recording of a run.  Every iteration adds one sample, of the words that the model has
settled on and before anything else in the iteration is driven.  So the dump of a whole run replays
to the run (`dump_replays`). -/

namespace PinBench.Bench

open Wave

variable {M : Type} [HardwareModel M] {around : Surroundings} {config : Config}
  {allocation : Gpio.Allocation} {f : Fixture M} {b d : Bench M} {schedule : Schedule} {n : Nat}

/-- The words on the signals of a bench. -/
def words (b : Bench M) : SignalId → Word := HardwareModel.read b.fixture.model

/-- The words on which the model settles in iteration `k`. -/
def settledWords (schedule : Schedule) (b : Bench M) (k : Nat) : SignalId → Word :=
  ((course schedule b k).settled (schedule k)).words

/-! ### One iteration -/

theorem settled_recorder (b : Bench M) (arrivals : Arrivals) :
    (b.settled arrivals).recorder =
      b.recorder.map fun r => r.sample b.time.now (b.settled arrivals).words := by
  obtain ⟨_, _, _, hact, -⟩ := actAll_eq b arrivals.actions
  obtain ⟨_, _, hrelease⟩ := releaseReset_eq (b.actAll arrivals.actions)
  have hrecorder : (b.actAll arrivals.actions).releaseReset.recorder = b.recorder := by
    rw [hrelease, hact]
  have htime : (b.actAll arrivals.actions).releaseReset.time = b.time := by
    rw [hrelease, hact]
  have hsettle : (b.settled arrivals).recorder =
      (b.actAll arrivals.actions).releaseReset.recorder.map fun r =>
        r.sample (b.actAll arrivals.actions).releaseReset.time.now (b.settled arrivals).words := rfl
  rw [hsettle, hrecorder, htime]

/-- What is exchanged with the model after it has settled is not recorded before the next one. -/
theorem midway_recorder (b : Bench M) (arrivals : Arrivals) :
    (b.midway arrivals).1.recorder =
      b.recorder.map fun r => r.sample b.time.now (b.settled arrivals).words := by
  obtain ⟨_, _, _, _, _, hexchange⟩ := exchange_frame (b.settled arrivals)
  show (b.settled arrivals).exchange.1.recorder = _
  rw [hexchange, ← settled_recorder]

theorem advance_recorder (b : Bench M) : b.advance.recorder = b.recorder := by
  obtain ⟨_, _, hadvance, -⟩ := advance_eq b
  rw [hadvance]

/-! ### Whole runs -/

/-- The recording after iteration `n` is that of the samples up to there. -/
theorem middle_recorder {r : Recorder} (h : b.recorder = some r) (schedule : Schedule) (n : Nat) :
    (middle schedule b n).1.recorder = some (((List.range (n + 1)).map fun k =>
      (⟨(course schedule b k).time.now, settledWords schedule b k⟩ : Sample)).foldl
        (fun r s => r.sample s.time s.read) r) := by
  induction n with
  | zero =>
    rw [middle, midway_recorder, course, h]
    rfl
  | succ n ih =>
    have hcourse : (course schedule b (n + 1)).recorder = (middle schedule b n).1.recorder :=
      advance_recorder _
    rw [middle, midway_recorder, hcourse, ih, List.range_succ (n := n + 1), List.map_append,
      List.foldl_append]
    rfl

theorem startRecorder_eq {recorder : Option Recorder}
    (h : startRecorder around config f = .ok recorder) (htrace : config.trace.enabled = true) :
    recorder =
      some (.start none config.trace.depth.toNat (HardwareModel.signals f.model)) := by
  unfold startRecorder at h
  rw [if_pos htrace] at h
  cases hwritable : around.traceWritable with
  | false => simp [hwritable, bind, Except.bind, throw, throwThe, MonadExceptOf.throw] at h
  | true =>
    simp only [hwritable, if_true, bind, Except.bind, pure, Except.pure, Except.ok.injEq] at h
    exact h.symm

omit [HardwareModel M] in
theorem shutdown_text {r : Recorder} (h : b.recorder = some r) :
    ∃ r', b.shutdown.recorder = some r' ∧ r'.text = r.text := by
  unfold shutdown
  split
  · exact ⟨r, h, rfl⟩
  · exact ⟨r.close, by rw [h]; rfl, rfl⟩

/-- A dump declares the signals within its depth limit and replays to its samples.  The samples of a
run are the words on which the model settled in each of its iterations, at the multiples of the time
step up to the final time. -/
theorem dump_replays :
    (∀ (depth : Nat) (table : List Signal) (samples : List Sample),
      ((declared (layout depth table)).map Entry.row).Perm (rowsWithin depth table) ∧
        (header (layout depth table)).filterMap Command.var? =
          (declared (layout depth table)).zipIdx.map
            (fun row => (row.1.width, row.2, row.1.name)) ∧
        Replays (layout depth table) samples (samples.foldl
          (fun r s => r.sample s.time s.read) (Recorder.start none depth table)).text) ∧
    ∀ (M : Type) [HardwareModel M] (around : Surroundings) (config : Config)
      (allocation : Gpio.Allocation) (f : Fixture M) (b : Bench M),
      start around config allocation f = .ok b → config.trace.enabled = true →
      ∀ (schedule : Schedule) (fuel : Nat) (report : Report) (d : Bench M) (n : Nat),
        run schedule 0 b fuel = some (report, d, n + 1) → n * config.timeStep ≤ Time.latest →
        report.finalTime = n * config.timeStep ∧ ∃ r, d.recorder = some r ∧
          Replays (layout config.trace.depth.toNat (HardwareModel.signals f.model))
            ((List.range (n + 1)).map fun k =>
              ⟨k * config.timeStep, settledWords schedule b k⟩) r.text := by
  refine ⟨fun depth table samples =>
    ⟨declared_layout_perm depth table, vars_header _, replays_sample depth table samples⟩, ?_⟩
  intro M _ around config allocation f b hstart htrace schedule fuel report d n hrun hlast
  have htime := start_time hstart
  have hconfig := start_config hstart
  have hinstant (k : Nat) (hk : k ≤ n) : (course schedule b k).time.now = k * config.timeStep := by
    rw [course_time htime, hconfig]
    exact Nat.min_eq_left (Nat.le_trans (Nat.mul_le_mul_right _ hk) hlast)
  obtain ⟨last, -, heq, -, -, hconclude⟩ := run_eq_some_iff.mp hrun
  obtain rfl : n = last := Nat.succ.inj heq
  rw [conclude, Prod.mk.injEq] at hconclude
  obtain ⟨hreport, hd⟩ := hconclude
  have hrecorder : b.recorder =
      some (.start none config.trace.depth.toNat (HardwareModel.signals f.model)) := by
    obtain ⟨_, _, _, _, -, -, -, hrecorder, rfl⟩ := eq_of_start hstart
    exact startRecorder_eq hrecorder htrace
  have hmiddle := middle_recorder hrecorder schedule n
  obtain ⟨r, hr, htext⟩ := shutdown_text (b := ended schedule b n) hmiddle
  refine ⟨?_, r, by rw [hd]; exact hr, ?_⟩
  · have hnow : report.finalTime = (middle schedule b n).1.time.now := by
      rw [hreport]
      rfl
    rw [hnow, middle_time, hinstant n (Nat.le_refl n)]
  · have hsamples : ((List.range (n + 1)).map fun k =>
        (⟨(course schedule b k).time.now, settledWords schedule b k⟩ : Sample)) =
        (List.range (n + 1)).map fun k => ⟨k * config.timeStep, settledWords schedule b k⟩ := by
      refine List.map_congr_left fun k hk => ?_
      rw [hinstant k (Nat.le_of_lt_succ (List.mem_range.mp hk))]
    rw [htext, ← hsamples]
    exact replays_sample _ _ _

/-- A recording of the signals without scopes, and a limit of 25 with a time step of 10. -/
def recorded : Config :=
  { Config.standard with trace := ⟨true, Config.defaultTraceFile, 1⟩, timeout := 25 }

theorem dump_replays_recorded :
    ∃ b report d r, start ⟨fun _ _ => true, true, true⟩ recorded .standard
        (Fixture.standard .standard) = .ok b ∧ recorded.trace.enabled = true ∧
      run quiet 0 b 9 = some (report, d, 3 + 1) ∧ 3 * recorded.timeStep ≤ Time.latest ∧
        report.finalTime = 30 ∧ d.recorder = some r ∧
        Replays (layout 1 Model.EchoSoc.table)
          ((List.range (3 + 1)).map fun k => ⟨k * 10, settledWords quiet b k⟩) r.text := by
  have hrun : (start ⟨fun _ _ => true, true, true⟩ recorded .standard
      (Fixture.standard Model.EchoSoc.standard)).toOption.bind
        (fun b => (run quiet 0 b 9).map (·.2.2)) = some (3 + 1) := by
    decide +kernel
  obtain ⟨b, hb, hmap⟩ := Option.bind_eq_some_iff.mp hrun
  obtain ⟨⟨report, d, next⟩, hrun, rfl⟩ := Option.map_eq_some_iff.mp hmap
  have hstart := eq_ok_of_toOption hb
  have htrace : recorded.trace.enabled = true := rfl
  have hlast : 3 * recorded.timeStep ≤ Time.latest := by decide
  obtain ⟨hfinal, r, hr, hreplays⟩ :=
    dump_replays.2 _ _ recorded _ _ b hstart htrace quiet 9 report d 3 hrun hlast
  exact ⟨b, report, d, r, hstart, htrace, hrun, hlast, hfinal, hr, hreplays⟩

end PinBench.Bench
