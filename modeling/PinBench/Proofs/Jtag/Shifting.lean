import PinBench.Proofs.Jtag.Phases

/-! One request in the shifter, from its load to its reply.  A command says how many clock periods
it takes and what mode-select and data-in are in each of them.  `clocks_request` says that the
shifter is busy for just those periods, drives just those levels, and replies to a scan with the
levels of data-out that it found at the ends of the low phases. -/

namespace PinBench.Jtag

namespace Command

/-- How many clock periods a command takes. -/
def periods (c : Command) (r : Record) : Nat :=
  if c = .reset then resetCycles else r.bits.toNat

/-- Mode-select in clock period `k` of a command. -/
def modeSelect (c : Command) (r : Record) (k : Nat) : Bool :=
  match c with
  | .reset => true
  | .tmsSequence => Bytes.bit r.out k
  | .scanFlipTms => k + 1 == r.bits.toNat
  | .scan | .stop => false

/-- Data-in in clock period `k` of a command. -/
def dataIn (c : Command) (r : Record) (k : Nat) : Bool :=
  match c with
  | .scan | .scanFlipTms => Bytes.bit r.out k
  | .reset | .tmsSequence | .stop => false

/-- Whether a command is answered. -/
def scans : Command → Bool
  | .scan | .scanFlipTms => true
  | .reset | .tmsSequence | .stop => false

/-- What a valid record asks for lies within its buffers. -/
theorem periods_le {c : Command} {r : Record} (hvalid : r.command = .ok c) (hstop : c ≠ .stop) :
    c.periods r ≤ 8 * bufferSize := by
  rw [periods]
  split
  · decide
  · rename_i hreset
    have hbits : c.carriesBits ≠ false := by cases c <;> simp_all [carriesBits]
    rw [Record.command] at hvalid
    split at hvalid
    · cases hvalid
    · split at hvalid
      · rename_i hcarries
        cases hvalid
        exact absurd hcarries hbits
      · split at hvalid
        · cases hvalid
        · split at hvalid
          · cases hvalid
          · omega

end Command

namespace Transfer

/-! ### The request of a command -/

variable {c : Command} {r : Record} {t : Transfer}

theorem ofCommand?_isSome (hstop : c ≠ .stop) (r : Record) : ∃ t, ofCommand? c r = some t := by
  cases c with
  | stop => exact absurd rfl hstop
  | reset | tmsSequence | scan | scanFlipTms => exact ⟨_, rfl⟩

theorem total_of_ofCommand? (h : ofCommand? c r = some t) : t.total = c.periods r := by
  cases c <;> simp only [ofCommand?, Option.some.injEq, reduceCtorEq] at h <;> subst h <;> rfl

theorem steps_of_ofCommand? (h : ofCommand? c r = some t) : t.steps = max (2 * c.periods r) 1 := by
  rw [steps, total_of_ofCommand? h]

/-- A clock period has a low and a high phase with the same mode-select and data-in. -/
theorem phase_of_ofCommand? (h : ofCommand? c r = some t) (j : Nat) :
    t.phase j = ⟨j % 2 == 1, c.modeSelect r (j / 2), c.dataIn r (j / 2)⟩ := by
  cases c <;> simp only [ofCommand?, Option.some.injEq, reduceCtorEq] at h <;> subst h <;> rfl

theorem answer_of_ofCommand? (h : ofCommand? c r = some t) (tdos : List Bool) :
    t.answer tdos =
      if c.scans then some { r with captured := .ofLevels (highPhases tdos) } else none := by
  cases c <;> simp only [ofCommand?, Option.some.injEq, reduceCtorEq] at h <;> subst h <;> rfl

/-- A request that is over leaves the lines as they are. -/
theorem levelAt_of_over {lines : Lines} {n : Nat} (h : (t.trace lines).length ≤ n) :
    t.levelAt lines (n + 1) = t.levelAt lines n := by
  rw [levelAt, levelAt, List.take_of_length_le h, List.take_of_length_le (Nat.le_succ_of_le h)]

end Transfer

namespace Shifter

/-- The shifter after one step for each of these levels of data-out. -/
def run (s : Shifter) (tdos : List Bool) : Shifter := tdos.foldl (fun s tdo => (s.step tdo).1) s

theorem run_concat (s : Shifter) (tdos : List Bool) (tdo : Bool) :
    s.run (tdos ++ [tdo]) = ((s.run tdos).step tdo).1 := by
  simp only [run, List.foldl_append, List.foldl_cons, List.foldl_nil]

variable {c : Command} {r : Record} {t : Transfer}

/-- A request on its way: while it lasts the shifter has it as far as it has come, and the lines
are where it has left them. -/
theorem run_load (s : Shifter) (h : Transfer.ofCommand? c r = some t) (tdos : List Bool) :
    (s.load c r).run tdos =
      ⟨if tdos.length < t.steps then some (t.after tdos) else none,
        t.levelAt s.lines tdos.length⟩ := by
  induction tdos using List.reverseRecOn with
  | nil =>
    have hload : s.load c r = ⟨some t, s.lines⟩ := by simp only [load, h]
    rw [Transfer.after_nil (Transfer.fresh_of_ofCommand? h), List.length_nil, if_pos t.steps_pos,
      hload]
    rfl
  | append_singleton tdos tdo ih =>
    rw [run_concat, ih, List.length_append, List.length_singleton]
    by_cases hlt : tdos.length < t.steps
    · rw [if_pos hlt, step_after t s.lines tdo hlt]
      split <;> rfl
    · -- The request is over, and the shifter rests.
      have hover : (t.trace s.lines).length ≤ tdos.length := by
        rw [t.length_trace]
        omega
      rw [if_neg hlt, if_neg (by omega), Transfer.levelAt_of_over hover]
      rfl

/-- A request is answered with its last step or not at all. -/
theorem reply_load (s : Shifter) (h : Transfer.ofCommand? c r = some t) (tdos : List Bool)
    (tdo : Bool) :
    (((s.load c r).run tdos).step tdo).2 =
      if tdos.length + 1 = t.steps then t.answer (tdos ++ [tdo]) else none := by
  rw [run_load s h]
  by_cases hlt : tdos.length < t.steps
  · rw [if_pos hlt, step_after t s.lines tdo hlt]
    by_cases hmore : tdos.length + 1 < t.steps
    · rw [if_pos hmore, if_neg (by omega)]
    · rw [if_neg hmore, if_pos (by omega)]
  · rw [if_neg hlt, if_neg (by omega)]
    rfl

end Shifter

/-- The levels of data-out at the high phases of a request, put into a buffer. -/
theorem bit_captured {tdos : List Bool} {n : Nat} (hlen : tdos.length = max (2 * n) 1)
    (hn : n ≤ 8 * bufferSize) (k : Nat) :
    Bytes.bit (Buffer.ofLevels (highPhases tdos)) k =
      (decide (k < n) && tdos.getD (2 * k + 1) false) := by
  rw [Buffer.bit_ofLevels, List.getD_eq_getElem?_getD, List.getD_eq_getElem?_getD,
    getElem?_highPhases]
  by_cases hk : k < n
  · have hfit : k < 8 * bufferSize := by omega
    simp [hk, hfit]
  · rw [List.getElem?_eq_none (by omega)]
    simp

/-- A valid request is loaded, and `tdos` are the levels of data-out in the steps since.  The
shifter is busy for two steps a clock period, or one if there is none.  The first of the two lowers
the clock and sets mode-select and data-in, the second raises the clock.  The bit under way lies
within the buffers.  The last step of a scan, and no other, gives a reply: the request with the
levels of data-out at the high phases. -/
theorem clocks_request (s : Shifter) {r : Record} {c : Command} (hvalid : r.command = .ok c)
    (hstop : c ≠ .stop) (tdos : List Bool) (tdo : Bool) :
    let n := c.periods r
    let before := (s.load c r).run tdos
    (before.busy = true ↔ tdos.length < max (2 * n) 1) ∧
    (∀ k < n,
      (tdos.length = 2 * k →
        (before.step tdo).1.lines = ⟨false, c.modeSelect r k, c.dataIn r k⟩) ∧
      (tdos.length = 2 * k + 1 →
        (before.step tdo).1.lines = ⟨true, c.modeSelect r k, c.dataIn r k⟩)) ∧
    (2 * n ≤ tdos.length → (before.step tdo).1.lines = before.lines) ∧
    (n = 0 → before.lines = s.lines) ∧
    (∀ t, before.transfer = some t → t.bit < t.total → t.bit < 8 * bufferSize) ∧
    ((before.step tdo).2.isSome = true ↔ c.scans = true ∧ tdos.length + 1 = max (2 * n) 1) ∧
    ∀ reply, (before.step tdo).2 = some reply →
      reply.code = r.code ∧ reply.out = r.out ∧ reply.length = r.length ∧ reply.bits = r.bits ∧
        ∀ k, Bytes.bit reply.captured k =
          (decide (k < n) && (tdos ++ [tdo]).getD (2 * k + 1) false) := by
  intro n before
  obtain ⟨t, ht⟩ := Transfer.ofCommand?_isSome hstop r
  have htotal : t.total = n := Transfer.total_of_ofCommand? ht
  have hsteps : t.steps = max (2 * n) 1 := Transfer.steps_of_ofCommand? ht
  have hbefore : before = ⟨if tdos.length < t.steps then some (t.after tdos) else none,
      t.levelAt s.lines tdos.length⟩ := Shifter.run_load s ht tdos
  have hlines : (before.step tdo).1.lines = t.levelAt s.lines (tdos.length + 1) := by
    rw [← Shifter.run_concat, Shifter.run_load s ht, List.length_append, List.length_singleton]
  have hreply : (before.step tdo).2 =
      if tdos.length + 1 = t.steps then t.answer (tdos ++ [tdo]) else none :=
    Shifter.reply_load s ht tdos tdo
  have hfits : n ≤ 8 * bufferSize := c.periods_le hvalid hstop
  refine ⟨?_, fun k hk => ⟨fun hlow => ?_, fun hhigh => ?_⟩, fun hover => ?_, fun hempty => ?_,
    fun under hunder hbit => ?_, ?_, fun reply hsome => ?_⟩
  · rw [hbefore, ← hsteps, Shifter.busy]
    by_cases hlt : tdos.length < t.steps <;> simp [hlt]
  · have heven : (2 * k) / 2 = k := by omega
    rw [hlines, t.levelAt_succ (by omega), Transfer.phase_of_ofCommand? ht, hlow, heven]
    simp
  · have hodd : (2 * k + 1) / 2 = k := by omega
    have hmod : (2 * k + 1) % 2 = 1 := by omega
    rw [hlines, t.levelAt_succ (by omega), Transfer.phase_of_ofCommand? ht, hhigh, hodd, hmod]
    rfl
  · rw [hlines, hbefore]
    by_cases hempty : t.total = 0
    · rw [Transfer.levelAt_of_empty hempty, Transfer.levelAt_of_empty hempty]
    · refine Transfer.levelAt_of_over ?_
      rw [t.length_trace]
      omega
  · rw [hbefore, Transfer.levelAt_of_empty (htotal.trans hempty)]
  · have hsome : t.after tdos = under := by
      rw [hbefore] at hunder
      by_cases hlt : tdos.length < t.steps <;> simp_all
    have hsame : under.total = t.total := by rw [← hsome]; rfl
    omega
  · rw [hreply, hsteps, Transfer.answer_of_ofCommand? ht]
    by_cases hlast : tdos.length + 1 = max (2 * n) 1 <;> cases c.scans <;> simp [hlast]
  · rw [hreply, hsteps, Transfer.answer_of_ofCommand? ht] at hsome
    split at hsome
    · rename_i hlast
      split at hsome
      · cases hsome
        exact ⟨rfl, rfl, rfl, rfl, bit_captured (by simpa using hlast) hfits⟩
      · cases hsome
    · cases hsome

/-- A scan of three bits, with mode-select high on the last of them. -/
def flippedScan : Record := .request .scanFlipTms [0b101] 3

theorem clocks_request_flippedScan :
    let s := Shifter.idle.load .scanFlipTms flippedScan
    (flippedScan.command = .ok .scanFlipTms ∧ Command.scanFlipTms ≠ .stop) ∧
      ((s.run [false, true, false, false]).step false).1.lines = ⟨false, true, true⟩ ∧
      ∃ reply, ((s.run [false, true, false, false, false]).step true).2 = some reply ∧
        reply.out = flippedScan.out ∧
        (List.range 4).map (Bytes.bit reply.captured) = [true, false, true, false] := by
  intro s
  have hvalid : flippedScan.command = .ok .scanFlipTms := rfl
  have hstop : Command.scanFlipTms ≠ .stop := by decide
  have hout : Bytes.bit flippedScan.out 2 = true := by decide +kernel
  obtain ⟨-, hlines, -⟩ :=
    clocks_request .idle hvalid hstop [false, true, false, false] false
  obtain ⟨-, -, -, -, -, hanswered, hreply⟩ :=
    clocks_request .idle hvalid hstop [false, true, false, false, false] true
  obtain ⟨reply, hsome⟩ := Option.isSome_iff_exists.mp (hanswered.mpr ⟨rfl, rfl⟩)
  obtain ⟨-, hsent, -, -, hbits⟩ := hreply reply hsome
  refine ⟨⟨hvalid, hstop⟩, ?_, reply, hsome, hsent, ?_⟩
  · rw [(hlines 2 (by decide)).1 rfl]
    simp only [Command.modeSelect, Command.dataIn, hout]
    rfl
  · simp only [hbits, List.range_succ, List.range_zero, List.nil_append, List.map_append,
      List.map_cons, List.map_nil]
    rfl

end PinBench.Jtag
