import PinBench.Proofs.Jtag.Turns

/-! What one session with a debug server leaves to the next.  Between sessions the inbox and the
outbox are empty, so no part of a record is left and no reply waits.  A request can be left:
`Leftover` says what a shifter has still to clock, and `cut_by_close` that it was under way when the
server closed a session. -/

namespace PinBench.Jtag

/-- A request that was read as a whole record. -/
def Transfer.WasRead (t : Transfer) : Prop :=
  ∃ raw r, raw.length = recordSize ∧ Record.decode? raw = some r ∧ r.transfer? = some t

/-- What a shifter has still to clock: nothing, or the rest of a request that found the lines at
`start`, with data-out at `current` in its steps so far. -/
inductive Leftover (shifter : Shifter) : List Transfer → Lines → List Bool → Prop
  | nothing : shifter.transfer = none → Leftover shifter [] shifter.lines []
  | rest {t : Transfer} {start : Lines} {current : List Bool} :
      t.WasRead → current.length < t.steps →
        shifter = ⟨some (t.after current), t.levelAt start current.length⟩ →
          Leftover shifter [t] start current

theorem Leftover.eq_nil_iff {shifter : Shifter} {cut : List Transfer} {start : Lines}
    {current : List Bool} (h : Leftover shifter cut start current) :
    cut = [] ↔ shifter.busy = false := by
  cases h with
  | nothing hidle => simp [Shifter.busy, hidle]
  | rest _ _ hshifter => simp [Shifter.busy, hshifter]

namespace Shifter

/-- What there is to clock was read from some stream. -/
def Traceable (shifter : Shifter) : Prop :=
  ∃ cut start current, Leftover shifter cut start current

theorem traceable_of_idle {shifter : Shifter} (h : shifter.transfer = none) : shifter.Traceable :=
  ⟨[], shifter.lines, [], .nothing h⟩

theorem traceable_load {raw : List UInt8} {r : Record} {t : Transfer} (lines : Lines)
    (hlen : raw.length = recordSize) (hdecode : Record.decode? raw = some r)
    (ht : r.transfer? = some t) : Traceable ⟨some t, lines⟩ := by
  have hfresh : t.Fresh := by
    rcases r.transfer?_or_ending? with ⟨t', hfresh, ht'⟩ | ⟨-, hnone, -⟩
    · rw [ht] at ht'
      exact Option.some.inj ht' ▸ hfresh
    · rw [ht] at hnone
      cases hnone
  refine ⟨[t], lines, [], .rest ⟨raw, r, hlen, hdecode, ht⟩ t.steps_pos ?_⟩
  rw [Transfer.after_nil hfresh]
  rfl

theorem Traceable.step {shifter : Shifter} (h : shifter.Traceable) (tdo : Bool) :
    (shifter.step tdo).1.Traceable := by
  obtain ⟨cut, start, current, hleft⟩ := h
  cases hleft with
  | nothing hidle =>
    have hstep : shifter.step tdo = (shifter, none) := by simp only [Shifter.step, hidle]
    rw [hstep]
    exact traceable_of_idle hidle
  | rest hread hlt hshifter =>
    rw [hshifter, Shifter.step_after _ _ _ hlt]
    split
    · rename_i hmore
      exact ⟨_, start, current ++ [tdo], .rest hread (by simpa using hmore) (by simp)⟩
    · exact traceable_of_idle rfl

/-- A reply is the end of a request. -/
theorem idle_of_reply {shifter : Shifter} {tdo : Bool} {r : Record}
    (h : (shifter.step tdo).2 = some r) : (shifter.step tdo).1.busy = false := by
  revert h
  simp only [Shifter.step]
  repeat' split
  all_goals simp [busy]

theorem busy_of_step {shifter : Shifter} {tdo : Bool} (h : (shifter.step tdo).1.busy = true) :
    shifter.busy = true := by
  cases hidle : shifter.transfer with
  | some t => simp [busy, hidle]
  | none => simpa [Shifter.step, hidle] using h

end Shifter

namespace Server

/-- Between sessions and while a request is clocked the inbox and the outbox are empty, and the
request was read from some stream. -/
structure Sound (s : Server) : Prop where
  empty : s.connected = false ∨ s.shifter.busy = true → s.inbox = [] ∧ s.outbox = []
  traceable : s.shifter.Traceable

variable {s : Server} {client : Nat} {c : Net.Connection}

theorem sound_of_empty (hinbox : s.inbox = []) (houtbox : s.outbox = [])
    (htraceable : s.shifter.Traceable) : s.Sound :=
  ⟨fun _ => ⟨hinbox, houtbox⟩, htraceable⟩

/-- A server that serves someone and clocks nothing may have read and still have to write. -/
theorem sound_of_idle (hattached : s.listener.attached = some c) (hidle : s.shifter.busy = false)
    (htraceable : s.shifter.Traceable) : s.Sound := by
  refine ⟨?_, htraceable⟩
  rintro (hvacant | hbusy)
  · exact nomatch (connected_of_attached hattached).symm.trans hvacant
  · exact nomatch hidle.symm.trans hbusy

theorem sound_close (htraceable : s.shifter.Traceable) : s.close.Sound :=
  sound_of_empty rfl rfl htraceable

theorem Sound.flush (h : s.Sound) (hattached : s.listener.attached = some c) : s.flush.1.Sound := by
  cases hbusy : s.shifter.busy with
  | true =>
    rw [flush_of_empty (h.empty (.inr hbusy)).2]
    exact h
  | false =>
    have hcases := flush_cases hattached
    generalize s.flush = flushed at hcases
    cases hcases with
    | taken => exact sound_of_idle rfl hbusy h.traceable
    | lost => exact sound_close h.traceable

theorem Sound.fetch (h : s.Sound) (hattached : s.listener.attached = some c) : s.fetch.1.Sound := by
  have hcases := fetch_cases hattached
  generalize s.fetch = fetched at hcases
  cases hcases with
  | held => exact h
  | waiting hidle => exact sound_of_idle rfl hidle h.traceable
  | loaded _ hempty hlen hdecode ht =>
    exact sound_of_empty rfl hempty (Shifter.traceable_load _ hlen hdecode ht)
  | ended => exact sound_close h.traceable

theorem Sound.clock (h : s.Sound) (hattached : s.listener.attached = some c) (tdo : Bool) :
    (s.clock tdo).1.Sound := by
  have hcases := clock_cases hattached tdo
  generalize s.clock tdo = clocked at hcases
  have htraceable := h.traceable.step tdo
  cases hcases with
  | quiet => exact ⟨fun hbusy => h.empty (hbusy.imp_right Shifter.busy_of_step), htraceable⟩
  | replied hreply => exact sound_of_idle rfl (Shifter.idle_of_reply hreply) htraceable
  | lost => exact sound_close htraceable

theorem Sound.accepted (h : s.Sound) : s.accepted.Sound := by
  refine ⟨?_, h.traceable⟩
  rintro (hvacant | hbusy)
  · refine h.empty (.inl ?_)
    cases hattached : s.listener.attached with
    | none => simp [connected, Net.Listener.connected, hattached]
    | some c =>
      have : s.listener.accept.connected = false := hvacant
      rwa [Net.Listener.accept_of_attached hattached] at this
  · exact h.empty (.inr hbusy)

theorem Sound.step (h : s.Sound) (cycle : Nat) (tdo : Bool) : (s.step cycle tdo).Sound := by
  have hserved : (s.serve tdo).1.Sound :=
    serve_induction h.accepted (fun hattached h => h.flush hattached)
      (fun hattached h => h.fetch hattached) (fun hattached tdo h => h.clock hattached tdo) tdo
  exact ⟨hserved.empty, hserved.traceable⟩

theorem connected_client (s : Server) (action : Net.ClientAction) :
    (s.meet (.client action)).connected = s.connected := by
  rw [meet_client]
  exact Net.Listener.connected_meet s.listener action

theorem sound_run (interface : Net.Interface) (events : List Event) :
    ((listen interface true).run events).Sound := by
  induction events using List.reverseRecOn with
  | nil => exact sound_of_empty rfl rfl (Shifter.traceable_of_idle rfl)
  | append_singleton events e ih =>
    rw [run_concat]
    cases e with
    | client action =>
      have hconnected := connected_client ((listen interface true).run events) action
      refine ⟨fun h => ?_, ?_⟩
      · rw [hconnected] at h
        rw [meet_client] at h ⊢
        exact ih.empty h
      · rw [meet_client]
        exact ih.traceable
    | step cycle tdo => exact ih.step cycle tdo
    | close => exact sound_close ih.traceable

/-- A step does not leave a request behind. -/
theorem step_closed (hsound : s.Sound) {cycle : Nat} {tdo : Bool}
    (hvacant : (s.step cycle tdo).connected = false)
    (hbusy : (s.step cycle tdo).shifter.busy = true) :
    s.connected = false ∧ (s.step cycle tdo).shifter = s.shifter := by
  have hvacant : (s.serve tdo).1.connected = false := hvacant
  have hbusy : (s.serve tdo).1.shifter.busy = true := hbusy
  show s.connected = false ∧ (s.serve tdo).1.shifter = s.shifter
  cases s.serves tdo with
  | vacant hnone hserve =>
    rw [hserve]
    refine ⟨?_, rfl⟩
    cases hattached : s.listener.attached with
    | none => simp [connected, Net.Listener.connected, hattached]
    | some c =>
      unfold accepted at hnone
      rw [Net.Listener.accept_of_attached hattached, hattached] at hnone
      cases hnone
  | unwritten hattached hflush hstatus hserve =>
    rw [hserve] at hbusy
    have hcases := flush_cases hattached
    rw [hflush] at hcases
    cases hcases with
    | taken => exact absurd rfl hstatus
    | lost _ hwaits => exact absurd (hsound.accepted.empty (.inr hbusy)).2 hwaits
  | unread _ _ hattached hfetch hstatus hserve =>
    rw [hserve] at hbusy
    have hcases := fetch_cases hattached
    rw [hfetch] at hcases
    cases hcases with
    | held | waiting | loaded => exact absurd rfl hstatus
    | ended hidle => exact absurd (hidle.symm.trans hbusy) Bool.false_ne_true
  | clocked _ _ _ _ hattached hserve =>
    rw [hserve] at hvacant hbusy
    have hcases := clock_cases hattached tdo
    generalize clock _ tdo = clocked at hcases hvacant hbusy
    cases hcases with
    | quiet =>
      exact absurd (hvacant.symm.trans (connected_of_attached hattached)) Bool.false_ne_true
    | replied => cases hvacant
    | lost hreply =>
      exact absurd ((Shifter.idle_of_reply hreply).symm.trans hbusy) Bool.false_ne_true

/-- A request that is left over between two sessions was under way when the server closed one. -/
theorem cut_by_close {interface : Net.Interface} {events : List Event}
    (hvacant : ((listen interface true).run events).connected = false)
    (hbusy : ((listen interface true).run events).shifter.busy = true) :
    ∃ before after, events = before ++ .close :: after ∧
      ((listen interface true).run before).connected = true ∧
      ((listen interface true).run before).shifter =
        ((listen interface true).run events).shifter := by
  -- Of all events only the close of a session parts a client from a request under way, and as long
  -- as no client is served the shifter stays as it is.
  induction events using List.reverseRecOn with
  | nil => cases hbusy
  | append_singleton events e ih =>
    rw [run_concat] at hvacant hbusy ⊢
    have hearlier : ((listen interface true).run events).connected = false →
        (((listen interface true).run events).meet e).shifter =
          ((listen interface true).run events).shifter →
        ∃ before after, events ++ [e] = before ++ .close :: after ∧
          ((listen interface true).run before).connected = true ∧
          ((listen interface true).run before).shifter =
            (((listen interface true).run events).meet e).shifter := by
      intro hvacant' hshifter
      obtain ⟨before, after, hsplit, hconnected, hsame⟩ := ih hvacant' (hshifter ▸ hbusy)
      exact ⟨before, after ++ [e], by rw [hsplit]; simp, hconnected, hsame.trans hshifter.symm⟩
    cases e with
    | client action =>
      refine hearlier ((connected_client _ action).symm.trans hvacant) ?_
      rw [meet_client]
    | step cycle tdo =>
      obtain ⟨hvacant', hshifter⟩ := step_closed (sound_run interface events) hvacant hbusy
      exact hearlier hvacant' hshifter
    | close =>
      cases hconnected : ((listen interface true).run events).connected with
      | false => exact hearlier hconnected rfl
      | true => exact ⟨events, [], rfl, hconnected, rfl⟩

/-- Between sessions a request is left over exactly if the server has closed one in the middle of
it. -/
theorem busy_iff_cut {interface : Net.Interface} {events : List Event}
    (hvacant : ((listen interface true).run events).connected = false) :
    ((listen interface true).run events).shifter.busy = true ↔
      ∃ before after, events = before ++ .close :: after ∧
        ((listen interface true).run before).connected = true ∧
        ((listen interface true).run before).shifter.busy = true ∧
        ((listen interface true).run before).shifter =
          ((listen interface true).run events).shifter := by
  constructor
  · intro hbusy
    obtain ⟨before, after, hsplit, hconnected, hsame⟩ := cut_by_close hvacant hbusy
    exact ⟨before, after, hsplit, hconnected, by rwa [hsame], hsame⟩
  · rintro ⟨before, after, -, -, hbusy, hsame⟩
    rwa [← hsame]

end Server

end PinBench.Jtag
