import PinBench.Proofs.Jtag.Leftover

/-! One client's session with a debug server that others use too.  A `Visit` is open, or lost
because the client has reset its connection, or over; each event has one lemma that says where it
leaves the session.  An `Account` says of an open session that the lines and the replies so far are
those of its requests, and `Kept` is what remains of that when the session is over. -/

namespace PinBench.Jtag

/-! ### The account of a session -/

/-- What the shifter has done is what the past of a session says, and so is what was written. -/
inductive Account (p : Past) (written : List UInt8) (shifter : Shifter) : Prop
  | settled {done : List Transfer} :
      shifter = ⟨none, p.lines⟩ → (∀ more, done <+: requests (p.bytes ++ more)) →
        Settled p.start done p.levels p.tdos written → Account p written shifter
  | clocking {done : List Transfer} {t : Transfer} {current : List Bool} :
      shifter = ⟨some (t.after current), p.lines⟩ →
        (∀ more, done ++ [t] <+: requests (p.bytes ++ more)) →
          Clocking p.start done t current p.levels p.tdos written → Account p written shifter

/-- The levels of a session are those of the stream's requests, and what was written is replies to
them: all of those that are over, if the session is `whole`. -/
structure Kept (p : Past) (whole : Bool) (written : List UInt8) : Prop where
  levels_le : ∀ more, p.levels <+: waveforms p.start (requests (p.bytes ++ more))
  written_le : ∀ more,
    written <+: (replies (requests (p.bytes ++ more)) p.tdos).flatMap Record.encode
  written_eq : whole = true → ∀ more,
    written = (replies (requests (p.bytes ++ more)) p.tdos).flatMap Record.encode

section Account

variable {p : Past} {written : List UInt8} {shifter : Shifter} {whole : Bool}

theorem Account.kept (h : Account p written shifter) : Kept p true written := by
  have heq : ∀ more, p.levels <+: waveforms p.start (requests (p.bytes ++ more)) ∧
      written = (replies (requests (p.bytes ++ more)) p.tdos).flatMap Record.encode := by
    intro more
    cases h with
    | settled _ hdone hsettled =>
      exact ⟨hsettled.levels_isPrefix (hdone more), hsettled.written_eq_replies (hdone more)⟩
    | clocking _ hdone hclocking =>
      obtain ⟨rest, hrest⟩ := hdone more
      rw [← hrest, List.append_assoc]
      exact ⟨hclocking.levels_isPrefix rest, hclocking.written_eq_replies rest⟩
  exact ⟨fun more => (heq more).1, fun more => (heq more).2 ▸ List.prefix_rfl,
    fun _ more => (heq more).2⟩

theorem Kept.weaken (h : Kept p whole written) {whole' : Bool} (hle : whole' = true → whole = true) :
    Kept p whole' written := ⟨h.levels_le, h.written_le, fun hwhole => h.written_eq (hle hwhole)⟩

theorem Kept.arrive (h : Kept p whole written) (new : List UInt8) :
    Kept (p.arrive new) whole written := by
  refine ⟨fun more => ?_, fun more => ?_, fun hwhole more => ?_⟩ <;>
    simp only [Past.arrive, List.append_assoc]
  · exact h.levels_le _
  · exact h.written_le _
  · exact h.written_eq hwhole _

theorem Kept.hangUp (h : Kept p whole written) : Kept p.hangUp whole written :=
  ⟨h.levels_le, h.written_le, h.written_eq⟩

theorem Kept.limit (h : Kept p whole written) (room : Option Nat) :
    Kept (p.limit room) whole written :=
  ⟨h.levels_le, h.written_le, h.written_eq⟩

/-- Nobody misses what comes after a part that is not whole. -/
theorem Kept.of_append {more : List UInt8} (h : Kept p whole (written ++ more)) :
    Kept p false written :=
  ⟨h.levels_le, fun rest => (List.prefix_append _ _).trans (h.written_le rest), fun h => nomatch h⟩

theorem Account.arrive (h : Account p written shifter) (new : List UInt8) :
    Account (p.arrive new) written shifter := by
  cases h with
  | settled hshifter hdone hsettled =>
    refine .settled hshifter (fun more => ?_) hsettled
    simp only [Past.arrive, List.append_assoc]
    exact hdone _
  | clocking hshifter hdone hclocking =>
    refine .clocking hshifter (fun more => ?_) hclocking
    simp only [Past.arrive, List.append_assoc]
    exact hdone _

theorem Account.hangUp (h : Account p written shifter) : Account p.hangUp written shifter := by
  cases h with
  | settled hshifter hdone hsettled => exact .settled hshifter hdone hsettled
  | clocking hshifter hdone hclocking => exact .clocking hshifter hdone hclocking

theorem Account.limit (h : Account p written shifter) (room : Option Nat) :
    Account (p.limit room) written shifter := by
  cases h with
  | settled hshifter hdone hsettled => exact .settled hshifter hdone hsettled
  | clocking hshifter hdone hclocking => exact .clocking hshifter hdone hclocking

theorem Idle.account {c : Net.Connection} {done : List Transfer} {s : Server}
    (h : Idle p c done s) : Account p (c.outgoing.toList ++ s.outbox) s.shifter :=
  .settled h.shifter_eq h.leads.isPrefix h.settled

theorem Busy.account {c : Net.Connection} {done : List Transfer} {t : Transfer}
    {current : List Bool} {s : Server} (h : Busy p c done t current s) :
    Account p (c.outgoing.toList ++ s.outbox) s.shifter := by
  rw [h.outbox_eq, List.append_nil]
  exact .clocking h.shifter_eq h.leads.isPrefix h.clocking

/-- An open session can be accounted for. -/
theorem Standing.account {s : Server} (h : Standing p false s) :
    ∃ c, s.listener.Holds p.client c ∧ c.reset = false ∧ s.inbox.length < recordSize ∧
      Account p (c.outgoing.toList ++ s.outbox) s.shifter := by
  cases h with
  | idle h => exact ⟨_, h.linked.holds, h.linked.reset_eq, h.inbox_lt, h.account⟩
  | busy h =>
    refine ⟨_, h.linked.holds, h.linked.reset_eq, ?_, h.account⟩
    rw [h.inbox_eq]
    decide

theorem Over.kept {c : Net.Connection} {done : List Transfer} {s : Server} (h : Over p c done s) :
    Kept p true c.outgoing.toList :=
  (Account.settled h.shifter_eq h.done_le h.settled).kept

/-- Replies are never taken back. -/
theorem replies_isPrefix (requests : List Transfer) (tdos more : List Bool) :
    replies requests tdos <+: replies requests (tdos ++ more) := by
  induction requests generalizing tdos with
  | nil => exact List.prefix_rfl
  | cons t rest ih =>
    rw [replies, replies]
    by_cases hshort : tdos.length < t.steps
    · rw [if_pos hshort]
      exact List.nil_prefix
    · have hlong : ¬(tdos ++ more).length < t.steps := by
        rw [List.length_append]
        omega
      rw [if_neg hshort, if_neg hlong, List.take_append_of_le_length (Nat.le_of_not_lt hshort),
        List.drop_append_of_le_length (Nat.le_of_not_lt hshort), List.prefix_append_right_inj]
      exact ih _

/-- A phase is clocked whose reply is lost. -/
theorem Kept.clock (h : Kept p whole written) (tdo : Bool) {after : Lines}
    (hlevels : ∀ more, p.levels ++ [after] <+: waveforms p.start (requests (p.bytes ++ more))) :
    Kept (p.clock tdo after) false written := by
  refine ⟨hlevels, fun more => (h.written_le more).trans ?_, fun hfalse => by cases hfalse⟩
  obtain ⟨new, hnew⟩ := replies_isPrefix (requests (p.bytes ++ more)) p.tdos [tdo]
  simp only [Past.clock, ← hnew, List.flatMap_append]
  exact List.prefix_append _ _

theorem Past.lines_clock (p : Past) (tdo : Bool) (after : Lines) :
    (p.clock tdo after).lines = after := by
  simp only [Past.lines, Past.clock, List.getLastD_concat]

/-- A phase keeps the account, and the levels at least if it ends in a reply that nobody gets. -/
theorem Account.clock (h : Account p written shifter) (hbusy : shifter.busy = true) (tdo : Bool) :
    ((shifter.step tdo).2 = none →
        Account (p.clock tdo (shifter.step tdo).1.lines) written (shifter.step tdo).1) ∧
      ∀ {r}, (shifter.step tdo).2 = some r →
        Kept (p.clock tdo (shifter.step tdo).1.lines) false written := by
  have hkept := h.kept
  cases h with
  | settled hshifter =>
    rw [hshifter] at hbusy
    cases hbusy
  | @clocking done t current hshifter hdone hclocking =>
    obtain ⟨after, hphase⟩ := hclocking.step tdo
    rw [← Past.lines, ← hshifter] at hphase
    rcases hphase with ⟨reply, hphase, hsettled⟩ | ⟨hphase, hclocking'⟩
    · rw [hphase]
      constructor
      · rintro rfl
        exact .settled (by rw [Past.lines_clock]) hdone (by simpa [Past.clock] using hsettled)
      · intro r _
        exact hkept.clock tdo fun more => hsettled.levels_isPrefix (hdone more)
    · rw [hphase]
      constructor
      · intro _
        exact .clocking (by rw [Past.lines_clock]) hdone hclocking'
      · intro r hreply
        cases hreply

end Account

/-! ### One event -/

/-- What waits for a client, if it is its turn. -/
def Server.owed (s : Server) (client : Nat) : List UInt8 :=
  if s.listener.turn = some client then s.outbox else []

/-- Where a client's session stands, whether the client has reset its connection, and what was still
to be written when the server closed the session.  That is nothing if every write took all its
bytes. -/
inductive Visit (p : Past) : Bool → List UInt8 → Server → Prop
  | attending {s : Server} {c : Net.Connection} :
      s.accepted.listener.At p.client (.served c) → Standing p false (s.accepted.seen p.client) →
        Visit p false [] s
  /-- The session ends as soon as the server reads or writes. -/
  | doomed {s : Server} {c : Net.Connection} :
      s.accepted.listener.At p.client (.served c) → c.reset = true → s.inbox.length < recordSize →
        Account p (c.outgoing.toList ++ s.outbox) s.shifter → Visit p true [] s
  | left {s : Server} {c : Net.Connection} {reset : Bool} {dropped : List UInt8} :
      s.listener.At p.client (.parted c) → Kept p (!reset) (c.outgoing.toList ++ dropped) →
        (reset = false → p.limited = false → dropped = []) → Visit p reset dropped s

section Visit

variable {p : Past} {s : Server} {c : Net.Connection} {reset : Bool} {dropped : List UInt8}
  {cycle : Nat} {tdo : Bool}

namespace Server

theorem owed_of_turn {client : Nat} (hturn : s.listener.turn = some client) :
    s.owed client = s.outbox := if_pos hturn

theorem owed_of_not_turn {client : Nat} (hturn : s.listener.turn ≠ some client) :
    s.owed client = [] := if_neg hturn

theorem active_accepted (s : Server) : s.accepted.active = s.active := by
  have h := s.accepted_accepted
  unfold accepted at h ⊢
  rw [active, active, h]

/-- A client that is served sees its steps as they are. -/
theorem observe_seen {client : Nat} (hat : s.accepted.listener.At client (.served c)) (cycle : Nat)
    (tdo : Bool) :
    ((s.accepted.seen client).observe cycle tdo).active = (s.observe cycle tdo).active ∧
      ((s.accepted.seen client).observe cycle tdo).tdo = (s.observe cycle tdo).tdo ∧
      ((s.accepted.seen client).observe cycle tdo).before = (s.observe cycle tdo).before ∧
      ((s.accepted.seen client).observe cycle tdo).after = (s.observe cycle tdo).after := by
  refine ⟨(active_seen hat).trans s.active_accepted, rfl, rfl, ?_⟩
  show ((s.accepted.seen client).step cycle tdo).lines = (s.step cycle tdo).lines
  rw [step_seen hat, step_accepted]
  rfl

end Server

/-- After a step that leaves an open session, the client is still served. -/
theorem Visit.of_step {p' : Past} (hat : s.accepted.listener.At p'.client (.served c))
    (h : Standing p' false ((s.step cycle tdo).seen p'.client)) :
    Visit p' false [] (s.step cycle tdo) := by
  obtain ⟨c₁, hholds, -⟩ := h.account
  obtain ⟨c', -, hserved | hparted⟩ := hat.tends_served (s.step_tends cycle tdo)
  · refine .attending (c := c') ?_ ?_
    · rwa [Server.accepted_of_served hserved]
    · rwa [Server.accepted_of_served hserved]
  · exact absurd hholds hparted.not_holds

theorem Visit.step_attending (hat : s.accepted.listener.At p.client (.served c))
    (h : Standing p false (s.accepted.seen p.client)) :
    Visit (if (s.observe cycle tdo).active then p.clock tdo (s.observe cycle tdo).after else p) false
        [] (s.step cycle tdo) ∧
      ((s.observe cycle tdo).active = false →
        (s.observe cycle tdo).after = (s.observe cycle tdo).before) := by
  obtain ⟨hactive, htdo, hbefore, hafter⟩ := Server.observe_seen hat cycle tdo
  have houtcome := h.step cycle tdo
  rw [Server.step_seen hat, Server.step_accepted] at houtcome
  rw [← hactive, ← hbefore, ← hafter]
  have htdo : ((s.accepted.seen p.client).observe cycle tdo).tdo = tdo := htdo
  generalize (s.accepted.seen p.client).observe cycle tdo = o at houtcome htdo ⊢
  cases houtcome with
  | clocked hactive _ _ _ hnext =>
    rw [hactive, if_pos rfl]
    rw [htdo] at hnext
    exact ⟨.of_step hat hnext, fun h => by cases h⟩
  | blocked hactive hafter _ _ _ hnext =>
    rw [hactive, if_neg Bool.false_ne_true]
    exact ⟨.of_step hat hnext, fun _ => hafter⟩
  | waited hactive hafter _ _ _ _ hnext =>
    rw [hactive, if_neg Bool.false_ne_true]
    exact ⟨.of_step hat hnext, fun _ => hafter⟩
  | ended hactive hafter _ _ _ _ hnext =>
    rw [hactive, if_neg Bool.false_ne_true]
    refine ⟨?_, fun _ => hafter⟩
    cases hnext with
    | parted hover =>
      refine .left (Net.Listener.at_of_letGo hover.letGo) ?_ fun _ _ => rfl
      rw [List.append_nil]
      exact hover.kept

/-- A server that reads from a connection that was reset ends the session. -/
theorem Server.fetch_of_reset {a : Server} (hattached : a.listener.attached = some c)
    (hreset : c.reset = true) (hinbox : a.inbox.length < recordSize)
    (hidle : a.shifter.busy = false) (hempty : a.outbox = []) :
    a.fetch = (a.close, .clientDisconnected) := by
  have hsame : ({ a with listener := { a.listener with attached := some c } } : Server) = a := by
    rw [← hattached]
  have hreceive : a.receive = (a, .disconnected) := by
    simp only [receive, hattached, Net.Connection.readUpTo, hreset, if_true, List.append_nil,
      (Record.decode?_eq_none_iff _).mpr hinbox, Net.Connection.tail, hsame]
  simp only [fetch, hidle, hempty, and_self, if_true, hreceive, fail]

/-- As long as nothing is written, nobody notices that the connection was reset. -/
theorem Visit.of_quiet (hat : s.accepted.listener.At p.client (.served c)) (hreset : c.reset = true)
    (hinbox : s.inbox.length < recordSize) {after : Lines} {shifter : Shifter} {status : Status}
    (h : Account (p.clock tdo after) (c.outgoing.toList ++ s.outbox) shifter) :
    Visit (p.clock tdo after) true []
      { s.accepted with shifter, lastCycle := cycle, lastStatus := status } := by
  refine .doomed (c := c) ?_ hreset hinbox h
  have hserved : ({ s.accepted with shifter, lastCycle := cycle, lastStatus := status } :
      Server).listener.At p.client (.served c) := hat
  rwa [Server.accepted_of_served hserved]

/-- What still waits cannot be written. -/
theorem Visit.step_unwritten (hat : s.accepted.listener.At p.client (.served c))
    (hreset : c.reset = true) (hwaits : s.outbox ≠ [])
    (h : Account p (c.outgoing.toList ++ s.outbox) s.shifter) :
    Visit p true [] (s.step cycle tdo) ∧ (s.observe cycle tdo).active = false ∧
      (s.observe cycle tdo).after = (s.observe cycle tdo).before := by
  obtain ⟨hattached, -⟩ := hat.client_of_served
  have hflush : s.accepted.flush = (s.accepted.close, .clientDisconnected) := by
    have hcases := Server.flush_cases hattached
    generalize s.accepted.flush = flushed at hcases
    cases hcases with
    | taken _ hopen => exact absurd (hopen hreset) hwaits
    | lost => rfl
  have hserve : s.serve tdo = (s.accepted.close, .clientDisconnected) := by
    rw [Server.serve_of_attached hattached, hflush]
  have hactive : s.active = false := by
    have hvacant : s.accepted.flush.1.connected = false := by
      simp [hflush, Server.close, Server.connected, Net.Listener.connected, Net.Listener.detach,
        hattached]
    unfold Server.accepted at hvacant
    rw [Server.active, hvacant, Bool.false_and]
  rw [Server.observe_eq hserve, Server.step_eq hserve]
  refine ⟨.left hat.detach ?_ fun _ _ => rfl, hactive, rfl⟩
  rw [List.append_nil]
  exact h.kept.of_append

theorem Visit.step_doomed (hat : s.accepted.listener.At p.client (.served c))
    (hreset : c.reset = true) (hinbox : s.inbox.length < recordSize)
    (h : Account p (c.outgoing.toList ++ s.outbox) s.shifter) :
    Visit (if (s.observe cycle tdo).active then p.clock tdo (s.observe cycle tdo).after else p) true
        [] (s.step cycle tdo) ∧
      ((s.observe cycle tdo).active = false →
        (s.observe cycle tdo).after = (s.observe cycle tdo).before) := by
  obtain ⟨hattached, -⟩ := hat.client_of_served
  by_cases hwaits : s.outbox = []
  · have hflush : s.accepted.flush = (s.accepted, .success) := Server.flush_of_empty hwaits
    have hactive := Server.active_eq hflush hattached
    cases hbusy : s.accepted.shifter.busy with
    | false =>
      have hfetch := Server.fetch_of_reset hattached hreset hinbox hbusy hwaits
      have hserve : s.serve tdo = _ :=
        Server.serve_of_failure hattached hflush hfetch (by decide)
      rw [hfetch, show s.accepted.close.shifter.busy = false from hbusy] at hactive
      rw [Server.observe_eq hserve, Server.step_eq hserve, hactive]
      exact ⟨.left hat.detach (hwaits ▸ h.kept.weaken (by decide)) fun _ _ => rfl, fun _ => rfl⟩
    | true =>
      have hfetch := Server.fetch_of_busy hbusy
      rw [hfetch, hbusy] at hactive
      have hcases := Server.clock_cases hattached tdo
      obtain ⟨s', status, hserved⟩ : ∃ s' status, s.serve tdo = (s', status) := ⟨_, _, rfl⟩
      rw [← Server.serve_of_success hattached hflush hfetch, hserved] at hcases
      obtain ⟨hquiet, hlost⟩ := h.clock hbusy tdo
      rw [Server.observe_eq hserved, Server.step_eq hserved, hactive, if_pos rfl]
      refine ⟨?_, fun h => by cases h⟩
      cases hcases with
      | replied _ hopen => exact absurd (hopen.symm.trans hreset) (by decide)
      | quiet hnone => exact .of_quiet hat hreset hinbox (hquiet hnone)
      | lost hreply =>
        have hkept := hlost hreply
        rw [hwaits] at hkept
        exact .left hat.detach hkept fun _ _ => rfl
  · obtain ⟨hvisit, hactive, hafter⟩ := step_unwritten hat hreset hwaits h
    rw [hactive, if_neg Bool.false_ne_true]
    exact ⟨hvisit, fun _ => hafter⟩

theorem Visit.step (h : Visit p reset dropped s) (hturn : s.listener.turn = some p.client)
    (cycle : Nat) (tdo : Bool) :
    Visit (if (s.observe cycle tdo).active then p.clock tdo (s.observe cycle tdo).after else p)
        reset dropped (s.step cycle tdo) ∧
      ((s.observe cycle tdo).active = false →
        (s.observe cycle tdo).after = (s.observe cycle tdo).before) := by
  cases h with
  | attending hat h => exact step_attending hat h
  | doomed hat hreset hinbox h => exact step_doomed hat hreset hinbox h
  | left hparted => exact absurd hturn hparted.turn_ne

/-- A step that serves another client is none of this one's business. -/
theorem Visit.step_other (h : Visit p reset dropped s) (hturn : s.listener.turn ≠ some p.client)
    (cycle : Nat) (tdo : Bool) : Visit p reset dropped (s.step cycle tdo) := by
  cases h with
  | attending hat | doomed hat => exact absurd hat.turn_of_accept hturn
  | left hparted hkept hnothing =>
    exact .left (hparted.parted_tends (s.step_tends cycle tdo)) hkept hnothing

theorem Server.close_of_vacant (hattached : s.listener.attached = none) (hinbox : s.inbox = [])
    (houtbox : s.outbox = []) : s.close = s := by
  obtain ⟨listener, inbox, outbox, shifter, lastCycle, lastStatus⟩ := s
  simp only at hattached hinbox houtbox
  simp [close, Net.Listener.detach, hattached, hinbox, houtbox]

/-- The server closes a session, and what it has not written yet is dropped. -/
theorem Visit.close (h : Visit p reset dropped s) (hsound : s.Sound) :
    Visit p reset (dropped ++ s.owed p.client) s.close := by
  cases hattached : s.listener.attached with
  | none =>
    have hvacant : s.connected = false := by
      simp [Server.connected, Net.Listener.connected, hattached]
    obtain ⟨hinbox, houtbox⟩ := hsound.empty (.inl hvacant)
    have howed : s.owed p.client = [] := by
      unfold Server.owed
      split
      · exact houtbox
      · rfl
    rwa [Server.close_of_vacant hattached hinbox houtbox, howed, List.append_nil]
  | some c₀ =>
    have haccepted : s.accepted = s := by
      rw [Server.accepted, Net.Listener.accept_of_attached hattached]
    cases h with
    | @attending _ c hat h =>
      obtain ⟨c', hholds, -, -, haccount⟩ := h.account
      have hc : c' = c := Net.Listener.At.served_of_holds hholds hat
      rw [Server.owed_of_turn hat.turn_of_accept, List.nil_append]
      rw [haccepted] at hat
      exact .left hat.detach (hc ▸ haccount.kept) fun _ hfree => h.outbox_eq hfree
    | doomed hat _ _ haccount =>
      rw [Server.owed_of_turn hat.turn_of_accept, List.nil_append]
      rw [haccepted] at hat
      exact .left hat.detach (haccount.kept.weaken (by decide)) fun hopen =>
        absurd hopen.symm Bool.false_ne_true
    | left hparted hkept hnothing =>
      rw [Server.owed_of_not_turn hparted.turn_ne, List.append_nil]
      exact .left (hparted.tends rfl Net.Listener.Tends.refl.detach) hkept hnothing

end Visit

/-! ### What clients do -/

/-- What an action of a client does to the past of a session. -/
def Past.heed (p : Past) : Net.ClientAction → Past
  | .send client bytes => if client = p.client then p.arrive bytes else p
  | .close client => if client = p.client then p.hangUp else p
  | .limit client room => if client = p.client then p.limit room else p
  | .connect _ | .abort _ => p

section Client

variable {p : Past} {s : Server} {reset : Bool} {dropped : List UInt8}
  {action : Net.ClientAction}

/-- An action adds to the stream of the session or ends it, or makes room for replies, or is none of
its business. -/
theorem Past.heed_cases (p : Past) (action : Net.ClientAction) :
    p.heed action = p ∨ (∃ bytes, p.heed action = p.arrive bytes) ∨ p.heed action = p.hangUp ∨
      ∃ room, p.heed action = p.limit room := by
  cases action with
  | connect | abort => exact .inl rfl
  | send client bytes =>
    by_cases hown : client = p.client
    · exact .inr (.inl ⟨bytes, if_pos hown⟩)
    · exact .inl (if_neg hown)
  | close client =>
    by_cases hown : client = p.client
    · exact .inr (.inr (.inl (if_pos hown)))
    · exact .inl (if_neg hown)
  | limit client room =>
    by_cases hown : client = p.client
    · exact .inr (.inr (.inr ⟨room, if_pos hown⟩))
    · exact .inl (if_neg hown)

theorem Past.client_heed (p : Past) (action : Net.ClientAction) :
    (p.heed action).client = p.client := by
  rcases p.heed_cases action with h | ⟨bytes, h⟩ | h | ⟨room, h⟩ <;> rw [h] <;> rfl

theorem Past.heed_of_other (hother : action.client ≠ p.client) : p.heed action = p := by
  cases action with
  | connect | abort => rfl
  | send | close | limit => exact if_neg hother

/-- A client whose connection had only so much room stays one. -/
theorem Past.limited_of_heed (p : Past) (hfree : (p.heed action).limited = false) :
    p.limited = false := by
  rcases p.heed_cases action with h | ⟨bytes, h⟩ | h | ⟨room, h⟩ <;> rw [h] at hfree
  · exact hfree
  · exact hfree
  · exact hfree
  · exact (Bool.or_eq_false_iff.mp hfree).1

theorem Account.heed {written : List UInt8} {shifter : Shifter} (h : Account p written shifter)
    (action : Net.ClientAction) : Account (p.heed action) written shifter := by
  rcases p.heed_cases action with hheed | ⟨bytes, hheed⟩ | hheed | ⟨room, hheed⟩ <;> rw [hheed]
  · exact h
  · exact h.arrive bytes
  · exact h.hangUp
  · exact h.limit room

theorem Kept.heed {written : List UInt8} {whole : Bool} (h : Kept p whole written)
    (action : Net.ClientAction) : Kept (p.heed action) whole written := by
  rcases p.heed_cases action with hheed | ⟨bytes, hheed⟩ | hheed | ⟨room, hheed⟩ <;> rw [hheed]
  · exact h
  · exact h.arrive bytes
  · exact h.hangUp
  · exact h.limit room

theorem Server.accepted_meet (hreachable : s.listener.reachable = true)
    (hturn : s.listener.turn ≠ none) (action : Net.ClientAction) :
    (s.meet (.client action)).accepted = s.accepted.meet (.client action) := by
  rw [meet_client, meet_client, accepted, Net.Listener.accept_meet hreachable hturn]
  rfl

/-- An open session stays open, unless its client resets the connection. -/
theorem Standing.heed {client : Nat} (h : Standing p false (s.seen client))
    (hclient : p.client = client) (hreachable : s.listener.reachable = true)
    (hold : action ≠ .connect client)
    (hnever : action ≠ .abort client) :
    Standing (p.heed action) false ((s.meet (.client action)).seen client) := by
  by_cases hown : action.client = client
  · obtain ⟨f, heffect⟩ := Net.ClientAction.effect_isSome hown hold
    have hseen : (s.meet (.client action)).seen client = (s.seen client).meet (.client action) := by
      rw [Server.meet_client, Server.meet_client]
      simp only [Server.seen, Net.Listener.seenBy_meet_self hown heffect]
    rw [hseen]
    subst hclient
    cases action with
    | connect other => exact absurd (congrArg Net.ClientAction.connect hown) hold
    | abort other => exact absurd (congrArg Net.ClientAction.abort hown) hnever
    | send other bytes =>
      obtain rfl : other = p.client := hown
      rw [Past.heed, if_pos rfl]
      exact h.send bytes
    | close other =>
      obtain rfl : other = p.client := hown
      rw [Past.heed, if_pos rfl]
      exact h.hangUp
    | limit other room =>
      obtain rfl : other = p.client := hown
      rw [Past.heed, if_pos rfl]
      exact h.limit room
  · have hseen : (s.meet (.client action)).seen client = s.seen client := by
      rw [Server.meet_client]
      simp only [Server.seen, Net.Listener.seenBy_meet_other hreachable hown]
    rwa [hseen, Past.heed_of_other (hclient ▸ hown)]

theorem Visit.client (h : Visit p reset dropped s) (hreachable : s.listener.reachable = true)
    (hold : action ≠ .connect p.client) :
    Visit (p.heed action) (reset || decide (action = .abort p.client)) dropped
      (s.meet (.client action)) := by
  have hreachable' : s.accepted.listener.reachable = true :=
    (Net.Listener.reachable_accept s.listener).trans hreachable
  have hturn : ∀ {c}, s.accepted.listener.At p.client (.served c) → s.listener.turn ≠ none := by
    intro c hat
    rw [Net.Listener.At.turn_of_accept hat]
    exact Option.some_ne_none _
  have hshifter : (s.meet (.client action)).shifter = s.shifter := by rw [Server.meet_client]
  have hinbox : (s.meet (.client action)).inbox = s.inbox := by rw [Server.meet_client]
  have houtbox : (s.meet (.client action)).outbox = s.outbox := s.outbox_meet_client action
  have hserved : ∀ {c}, s.accepted.listener.At p.client (.served c) →
      (s.meet (.client action)).accepted.listener.At (p.heed action).client
        (.served (c.heed p.client action)) := by
    intro c hat
    rw [Server.accepted_meet hreachable (hturn hat), Server.meet_client, Past.client_heed]
    exact hat.heed hreachable' hold
  cases h with
  | @attending _ c hat h =>
    by_cases habort : action = .abort p.client
    · obtain ⟨c', hholds, -, hshort, haccount⟩ := h.account
      have hc : c' = c := Net.Listener.At.served_of_holds hholds hat
      rw [decide_eq_true habort, Bool.or_true]
      refine .doomed (hserved hat) ?_ (hinbox ▸ hshort) ?_
      · rw [Net.Connection.heed_reset, decide_eq_true habort, Bool.or_true]
      · rw [hshifter, houtbox, Net.Connection.heed_outgoing, ← hc]
        exact haccount.heed action
    · rw [decide_eq_false habort, Bool.or_false]
      refine .attending (hserved hat) ?_
      rw [Server.accepted_meet hreachable (hturn hat), Past.client_heed]
      exact h.heed rfl hreachable' hold habort
  | doomed hat hreset hshort haccount =>
    rw [Bool.true_or]
    refine .doomed (hserved hat) ?_ (hinbox ▸ hshort) ?_
    · rw [Net.Connection.heed_reset, hreset, Bool.true_or]
    · rw [hshifter, houtbox, Net.Connection.heed_outgoing]
      exact haccount.heed action
  | @left _ c reset dropped hparted hkept hnothing =>
    have hparted' : (s.meet (.client action)).listener.At (p.heed action).client
        (.parted (c.heed p.client action)) := by
      rw [Server.meet_client, Past.client_heed]
      exact hparted.heed hreachable hold
    refine .left hparted' ?_ fun hopen hfree => ?_
    · rw [Net.Connection.heed_outgoing]
      refine (hkept.heed action).weaken ?_
      cases reset <;> simp
    · exact hnothing (Bool.or_eq_false_iff.mp hopen).1 (p.limited_of_heed hfree)

end Client

end PinBench.Jtag
