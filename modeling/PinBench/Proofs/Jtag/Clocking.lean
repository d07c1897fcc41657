import PinBench.Proofs.Jtag.Requests

/-! Clocking one request after another.  `waveforms` is the levels after each step that requests
take, and `replies` the answers to those that are over.  `Settled` says that the steps so far are
those of some requests, and `Clocking` that one more request is under way; a step of the shifter
takes the second on, and to the first after the request's last step. -/

namespace PinBench.Jtag

/-- The levels after each step of some requests, the first of which finds the lines at `start`. -/
def waveforms (start : Lines) : List Transfer → List Lines
  | [] => []
  | t :: rest => t.trace start ++ waveforms ((t.trace start).getLastD start) rest

/-- The replies to those of some requests that are over, with data-out as given in their steps. -/
def replies : List Transfer → List Bool → List Record
  | [], _ => []
  | t :: rest, tdos =>
    if tdos.length < t.steps then []
    else (t.answer (tdos.take t.steps)).toList ++ replies rest (tdos.drop t.steps)

theorem getLastD_append (start : Lines) (levels more : List Lines) :
    (levels ++ more).getLastD start = more.getLastD (levels.getLastD start) := by
  simp only [List.getLastD_eq_getLast?, List.getLast?_append]
  cases more.getLast? <;> rfl

theorem waveforms_append (start : Lines) (done rest : List Transfer) :
    waveforms start (done ++ rest) =
      waveforms start done ++ waveforms ((waveforms start done).getLastD start) rest := by
  induction done generalizing start with
  | nil => rfl
  | cons t done ih =>
    rw [List.cons_append, waveforms, ih, waveforms, List.append_assoc, getLastD_append]

theorem replies_of_short {t : Transfer} {tdos : List Bool} (hshort : tdos.length < t.steps)
    (rest : List Transfer) : replies (t :: rest) tdos = [] := by
  rw [replies, if_pos hshort]

theorem replies_nil (requests : List Transfer) : replies requests [] = [] := by
  cases requests with
  | nil => rfl
  | cons t rest =>
    have hshort : ([] : List Bool).length < t.steps := t.steps_pos
    exact replies_of_short hshort rest

theorem replies_append {start : Lines} {done : List Transfer} {tdos : List Bool}
    (hlen : tdos.length = (waveforms start done).length) (rest : List Transfer)
    (more : List Bool) :
    replies (done ++ rest) (tdos ++ more) = replies done tdos ++ replies rest more := by
  induction done generalizing start tdos with
  | nil =>
    have hnil : tdos = [] := List.length_eq_zero_iff.mp hlen
    subst hnil
    rfl
  | cons t done ih =>
    rw [waveforms, List.length_append, t.length_trace] at hlen
    have hsteps : t.steps ≤ tdos.length := by omega
    have hrest : (tdos.drop t.steps).length =
        (waveforms ((t.trace start).getLastD start) done).length := by
      rw [List.length_drop]
      omega
    rw [List.cons_append, replies, replies, if_neg (by rw [List.length_append]; omega),
      if_neg (by omega), List.take_append_of_le_length hsteps,
      List.drop_append_of_le_length hsteps, ih hrest, List.append_assoc]

/-- The steps that took some lines from `start` through `levels`, with data-out at `tdos`, were
those of the requests `done`, whose replies are the bytes `written`. -/
structure Settled (start : Lines) (done : List Transfer) (levels : List Lines) (tdos : List Bool)
    (written : List UInt8) : Prop where
  levels_eq : levels = waveforms start done
  length_eq : tdos.length = levels.length
  written_eq : written = (replies done tdos).flatMap Record.encode

/-- The same with `current`, the last of the steps, belonging to one more request `t` that is not
over. -/
structure Clocking (start : Lines) (done : List Transfer) (t : Transfer) (current : List Bool)
    (levels : List Lines) (tdos : List Bool) (written : List UInt8) : Prop where
  unfinished : current.length < t.steps
  settled : ∃ levels₀ tdos₀, Settled start done levels₀ tdos₀ written ∧
    tdos = tdos₀ ++ current ∧
    levels = levels₀ ++ (t.trace (levels₀.getLastD start)).take current.length

section Laws

variable {start : Lines} {done : List Transfer} {t : Transfer} {current tdos : List Bool}
  {levels : List Lines} {written : List UInt8}

theorem Settled.nil (start : Lines) : Settled start [] [] [] [] := ⟨rfl, rfl, rfl⟩

theorem Settled.clocking (h : Settled start done levels tdos written) (t : Transfer) :
    Clocking start done t [] levels tdos written :=
  ⟨t.steps_pos, levels, tdos, h, (List.append_nil _).symm, (List.append_nil _).symm⟩

theorem Settled.levels_isPrefix (h : Settled start done levels tdos written)
    {requests : List Transfer} (hdone : done <+: requests) :
    levels <+: waveforms start requests := by
  obtain ⟨rest, rfl⟩ := hdone
  rw [h.levels_eq, waveforms_append]
  exact List.prefix_append _ _

theorem Settled.replies_append (h : Settled start done levels tdos written)
    (rest : List Transfer) (more : List Bool) :
    replies (done ++ rest) (tdos ++ more) = replies done tdos ++ replies rest more :=
  Jtag.replies_append (h.length_eq.trans (congrArg _ h.levels_eq)) rest more

theorem Settled.written_eq_replies (h : Settled start done levels tdos written)
    {requests : List Transfer} (hdone : done <+: requests) :
    written = (replies requests tdos).flatMap Record.encode := by
  obtain ⟨rest, rfl⟩ := hdone
  have happend := h.replies_append rest []
  rw [List.append_nil, replies_nil, List.append_nil] at happend
  rw [happend, h.written_eq]

theorem Clocking.levels_eq (h : Clocking start done t current levels tdos written) :
    levels = waveforms start done ++
      (t.trace ((waveforms start done).getLastD start)).take current.length := by
  obtain ⟨levels₀, tdos₀, hsettled, -, hlevels⟩ := h.settled
  rw [hlevels, hsettled.levels_eq]

theorem Clocking.levels_isPrefix (h : Clocking start done t current levels tdos written)
    (rest : List Transfer) : levels <+: waveforms start (done ++ t :: rest) := by
  rw [h.levels_eq, waveforms_append, waveforms, List.prefix_append_right_inj]
  exact (List.take_prefix _ _).trans (List.prefix_append _ _)

theorem Clocking.length_lt (h : Clocking start done t current levels tdos written)
    (rest : List Transfer) : levels.length < (waveforms start (done ++ t :: rest)).length := by
  have := h.unfinished
  rw [h.levels_eq, waveforms_append, waveforms]
  simp only [List.length_append, List.length_take, Transfer.length_trace]
  omega

theorem Clocking.written_eq_replies (h : Clocking start done t current levels tdos written)
    (rest : List Transfer) :
    written = (replies (done ++ t :: rest) tdos).flatMap Record.encode := by
  obtain ⟨levels₀, tdos₀, hsettled, htdos, -⟩ := h.settled
  rw [htdos, hsettled.replies_append, replies_of_short h.unfinished, List.append_nil,
    hsettled.written_eq]

/-- The lines are where the request under way finds them. -/
theorem Clocking.getLastD_eq (h : Clocking start done t current levels tdos written) :
    levels.getLastD start =
      t.levelAt ((waveforms start done).getLastD start) current.length := by
  rw [h.levels_eq, getLastD_append, Transfer.levelAt]

/-- What one step of the shifter makes of a request under way. -/
theorem Clocking.step (h : Clocking start done t current levels tdos written) (tdo : Bool) :
    ∃ after, (∃ reply, Shifter.step ⟨some (t.after current), levels.getLastD start⟩ tdo =
          (⟨none, after⟩, reply) ∧
        Settled start (done ++ [t]) (levels ++ [after]) (tdos ++ [tdo])
          (written ++ reply.toList.flatMap Record.encode)) ∨
      (Shifter.step ⟨some (t.after current), levels.getLastD start⟩ tdo =
          (⟨some (t.after (current ++ [tdo])), after⟩, none) ∧
        Clocking start done t (current ++ [tdo]) (levels ++ [after]) (tdos ++ [tdo]) written) := by
  have hlast := h.getLastD_eq
  obtain ⟨hunfinished, levels₀, tdos₀, hsettled, htdos, hlevels⟩ := h
  rw [← hsettled.levels_eq] at hlast
  have hstep := Shifter.step_after t (levels₀.getLastD start) tdo hunfinished
  -- The levels after the step are the next ones of the request's trace.
  have hnext : levels ++ [t.levelAt (levels₀.getLastD start) (current.length + 1)] =
      levels₀ ++ (t.trace (levels₀.getLastD start)).take (current.length + 1) := by
    have hlt : current.length < (t.trace (levels₀.getLastD start)).length := by
      rwa [t.length_trace]
    rw [hlevels, List.append_assoc, Transfer.levelAt, List.take_succ_eq_append_getElem hlt,
      List.getLastD_concat]
  refine ⟨t.levelAt (levels₀.getLastD start) (current.length + 1), ?_⟩
  rw [hlast, hstep]
  by_cases hmore : current.length + 1 < t.steps
  · right
    rw [if_pos hmore]
    refine ⟨rfl, ⟨?_, levels₀, tdos₀, hsettled, ?_, ?_⟩⟩
    · simpa using hmore
    · rw [htdos, List.append_assoc]
    · simpa using hnext
  · left
    have hall : current.length + 1 = t.steps := by omega
    rw [if_neg hmore]
    refine ⟨_, rfl, ?_, ?_, ?_⟩
    · rw [hnext, hall, ← t.length_trace (levels₀.getLastD start), List.take_length,
        waveforms_append, ← hsettled.levels_eq, waveforms, waveforms, List.append_nil]
    · rw [hnext, htdos]
      simp [hsettled.length_eq, hall, t.length_trace]
    · have hanswer : replies [t] (current ++ [tdo]) = (t.answer (current ++ [tdo])).toList := by
        have hlen : (current ++ [tdo]).length = t.steps := by simpa using hall
        rw [replies, if_neg (by omega), List.take_of_length_le (by omega), replies,
          List.append_nil]
      rw [htdos, List.append_assoc, hsettled.replies_append, hanswer, List.flatMap_append,
        ← hsettled.written_eq]

end Laws

end PinBench.Jtag
