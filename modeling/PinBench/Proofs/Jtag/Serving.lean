import PinBench.Proofs.Jtag.Session

/-! One step of the server in a session: what it writes of the last reply, what it reads, whether it
finds a request, and the phase that it clocks.  `Standing.step` puts the parts together. -/

namespace PinBench.Jtag

/-- The server after it has read from its client, with what is unread and what is in the inbox. -/
def Server.reads (s : Server) (c : Net.Connection) (unread : List (List UInt8))
    (inbox : List UInt8) : Server :=
  { s with
    listener := { s.listener with attached := some { c with incoming := unread } }
    inbox }

variable {p : Past} {c : Net.Connection} {done : List Transfer} {t : Transfer}
  {current : List Bool} {s : Server}

theorem Linked.reads (h : Linked p c s) (hattached : s.listener.attached = some c)
    (unread : List (List UInt8)) (inbox : List UInt8) :
    Linked p { c with incoming := unread } (s.reads c unread inbox) :=
  ⟨h.holds.attach hattached rfl, h.reset_eq, h.ended_eq, h.room_eq⟩

/-- What waits is written to a client, who has not reset its connection if anything waits. -/
theorem Server.flush_of_open (hattached : s.listener.attached = some c)
    (hopen : c.reset = true → s.outbox = []) :
    ∃ c' outbox, c.Writes s.outbox c' outbox ∧
      s.flush =
        ({ s with listener := { s.listener with attached := some c' }, outbox }, .success) := by
  unfold flush
  by_cases hempty : s.outbox = []
  · have hsame : ({ s with
        listener := { s.listener with attached := some c }, outbox := [] } : Server) = s := by
      rw [← hattached, ← hempty]
    refine ⟨c, [], ?_, ?_⟩
    · rw [hempty]
      exact .nothing c
    · simp [hattached, hempty, hsame]
  · have hreset : c.reset = false := Bool.not_eq_true _ ▸ fun h => hempty (hopen h)
    obtain ⟨c', outbox, hwrite, hwrites⟩ := Net.Connection.write?_of_open hreset s.outbox
    exact ⟨c', outbox, hwrites, by simp [hattached, hempty, hwrite]⟩

theorem Server.flush_of_empty (hempty : s.outbox = []) : s.flush = (s, .success) := by
  unfold flush
  split <;> simp [hempty]

theorem Server.fetch_of_busy (hbusy : s.shifter.busy = true) : s.fetch = (s, .success) := by
  rw [fetch, if_neg (by simp [hbusy])]

theorem Server.fetch_of_blocked (hblocked : s.outbox ≠ []) : s.fetch = (s, .success) := by
  rw [fetch, if_neg fun h => hblocked h.2]

theorem Server.receive_outbox (s : Server) : s.receive.1.outbox = s.outbox := by
  fun_cases receive s <;> rfl

theorem Server.fetch_outbox (hempty : s.outbox = []) : s.fetch.1.outbox = [] := by
  have hreceive := s.receive_outbox
  fun_cases fetch s <;> simp_all [fail, close]

/-- After a write of what waits, a session stands between the same two requests.  If the connection
always has room, nothing waits any more. -/
theorem Idle.flush (h : Idle p c done s) (hattached : s.listener.attached = some c) :
    ∃ s' c', s.flush = (s', .success) ∧ s'.listener.attached = some c' ∧ Idle p c' done s' ∧
      (p.limited = false → s'.outbox = []) := by
  obtain ⟨c', outbox, hwrites, hflush⟩ :=
    Server.flush_of_open hattached fun hreset => nomatch h.linked.reset_eq.symm.trans hreset
  refine ⟨_, c', hflush, rfl, ⟨⟨?_, ?_, ?_, ?_⟩, h.shifter_eq, h.inbox_lt, ?_, ?_⟩, ?_⟩
  · exact h.linked.holds.attach hattached hwrites.client_eq
  · exact hwrites.reset_eq.trans h.linked.reset_eq
  · exact hwrites.ended_eq.trans h.linked.ended_eq
  · exact fun hfree => (hwrites.free (h.linked.room_eq hfree)).1
  · rw [hwrites.incoming_eq]
    exact h.leads
  · rw [hwrites.outgoing_eq]
    exact h.settled
  · exact fun hfree => (hwrites.free (h.linked.room_eq hfree)).2

/-- Either a whole record is read, or everything is and it is less than a record. -/
theorem Idle.receive (h : Idle p c done s) (hattached : s.listener.attached = some c) :
    (∃ unread raw r, raw.length = recordSize ∧ Record.decode? raw = some r ∧
      s.inbox ++ c.incoming.flatten = raw ++ unread.flatten ∧
      s.receive = (s.reads c unread [], .record r)) ∨
    ∃ unread inbox, inbox.length < recordSize ∧ unread.flatten = [] ∧
      s.inbox ++ c.incoming.flatten = inbox ∧
      s.receive = (s.reads c unread inbox, if c.ended then .disconnected else .incomplete) := by
  have hshort := h.inbox_lt
  obtain ⟨taken, unread, htake⟩ :
      ∃ taken unread, Net.Connection.takeBytes (recordSize - s.inbox.length) c.incoming =
        (taken, unread) := ⟨_, _, rfl⟩
  have hall := Net.Connection.takeBytes_append_flatten (recordSize - s.inbox.length) c.incoming
  have hlen := Net.Connection.length_takeBytes (recordSize - s.inbox.length) c.incoming
  simp only [htake] at hall hlen
  have hflatten : c.incoming.flatten.length = taken.length + unread.flatten.length := by
    rw [← hall, List.length_append]
  cases hdecode : Record.decode? (s.inbox ++ taken) with
  | some r =>
    left
    have hlong : ¬(s.inbox ++ taken).length < recordSize := by
      intro hlt
      rw [(Record.decode?_eq_none_iff _).mpr hlt] at hdecode
      cases hdecode
    refine ⟨unread, s.inbox ++ taken, r, ?_, hdecode, ?_, ?_⟩
    · rw [List.length_append] at hlong ⊢
      omega
    · rw [List.append_assoc, hall]
    · simp only [Server.receive, hattached, Net.Connection.readUpTo_of_open h.linked.reset_eq, htake,
        hdecode]
      rfl
  | none =>
    right
    have hlt := (Record.decode?_eq_none_iff _).mp hdecode
    have hempty : unread.flatten = [] := by
      rw [List.length_append] at hlt
      exact List.length_eq_zero_iff.mp (by omega)
    refine ⟨unread, s.inbox ++ taken, hlt, hempty, ?_, ?_⟩
    · rw [← hall, hempty, List.append_nil]
    · simp only [Server.receive, hattached, Net.Connection.readUpTo_of_open h.linked.reset_eq, htake,
        hdecode]
      cases hended : c.ended <;>
        simp [Net.Connection.tail, h.linked.reset_eq, hended, Server.reads]

/-- The client is let go of between two requests. -/
theorem Linked.close (h : Linked p c s) (hattached : s.listener.attached = some c)
    (hshifter : s.shifter = ⟨none, p.lines⟩) {rest : List UInt8} (hleads : Leads p.bytes done rest)
    (hsettled : Settled p.start done p.levels p.tdos c.outgoing.toList) :
    Over p c.close done s.close :=
  ⟨h.holds.detach hattached, hshifter, rfl, hleads.isPrefix, hsettled⟩

theorem Server.fetch_of_transfer? {s s' : Server} {r : Record} (hidle : s.shifter.busy = false)
    (hempty : s.outbox = []) (hreceive : s.receive = (s', .record r)) (ht : r.transfer? = some t) :
    s.fetch = ({ s' with shifter := { s'.shifter with transfer := some t } }, .success) := by
  unfold Record.transfer? at ht
  cases hcommand : r.command with
  | error e => simp [hcommand] at ht
  | ok command =>
    simp only [hcommand] at ht
    cases command with
    | stop => cases ht
    | reset | tmsSequence | scan | scanFlipTms =>
      simp only [fetch, hidle, hempty, and_self, if_true, hreceive, hcommand, Shifter.load, ht]

theorem Server.fetch_of_ending? {s s' : Server} {r : Record} {e : Ending}
    (hidle : s.shifter.busy = false) (hempty : s.outbox = [])
    (hreceive : s.receive = (s', .record r))
    (he : r.ending? = some e) (ended : Bool) : s.fetch = (s'.close, e.status ended) := by
  unfold Record.ending? at he
  cases hcommand : r.command with
  | error error =>
    simp only [hcommand, Option.some.injEq] at he
    subst he
    simp only [fetch, hidle, hempty, and_self, if_true, hreceive, hcommand]
    rfl
  | ok command =>
    cases command with
    | stop =>
      simp only [hcommand, Option.some.injEq] at he
      subst he
      simp only [fetch, hidle, hempty, and_self, if_true, hreceive, hcommand]
      rfl
    | reset | tmsSequence | scan | scanFlipTms => simp [hcommand] at he

/-- A record is a request or ends the session. -/
theorem Record.transfer?_or_ending? (r : Record) :
    (∃ t, t.Fresh ∧ r.transfer? = some t) ∨
      ∃ e, r.transfer? = none ∧ r.ending? = some e ∧ ∀ ended, e.status ended ≠ .success := by
  unfold Record.transfer? Record.ending?
  cases hcommand : r.command with
  | error error => exact .inr ⟨.refused, rfl, rfl, by decide⟩
  | ok command =>
    cases ht : Transfer.ofCommand? command r with
    | some t => exact .inl ⟨t, Transfer.fresh_of_ofCommand? ht, ht⟩
    | none =>
      cases command with
      | stop => exact .inr ⟨.stopped, ht, rfl, by decide⟩
      | reset | tmsSequence | scan | scanFlipTms => cases ht

/-- What comes of looking for a request. -/
inductive Fetched (p : Past) (done : List Transfer) : Server × Status → Prop
  | loaded {s : Server} {c : Net.Connection} {t : Transfer} :
      s.listener.attached = some c → Busy p c done t [] s → Fetched p done (s, .success)
  | waiting {s : Server} {c : Net.Connection} :
      s.listener.attached = some c → Idle p c done s → requests p.bytes = done →
        p.verdict = .success → Fetched p done (s, .success)
  | ended {s : Server} {c : Net.Connection} :
      Over p c done s → requests p.bytes = done → p.verdict ≠ .success →
        Fetched p done (s, p.verdict)

theorem Idle.not_busy (h : Idle p c done s) : s.shifter.busy = false := by
  rw [h.shifter_eq]
  rfl

theorem Idle.settled_of_empty (h : Idle p c done s) (hempty : s.outbox = []) :
    Settled p.start done p.levels p.tdos c.outgoing.toList := by
  have hsettled := h.settled
  rwa [hempty, List.append_nil] at hsettled

/-- A whole record has been read: its command decides. -/
theorem Idle.fetch_record (h : Idle p c done s) (hattached : s.listener.attached = some c)
    (hempty : s.outbox = [])
    {unread : List (List UInt8)} {raw : List UInt8} {r : Record} (hlen : raw.length = recordSize)
    (hdecode : Record.decode? raw = some r)
    (hstream : s.inbox ++ c.incoming.flatten = raw ++ unread.flatten)
    (hreceive : s.receive = (s.reads c unread [], .record r)) : Fetched p done s.fetch := by
  have hleads := h.leads
  rw [hstream] at hleads
  have hlinked := h.linked.reads hattached unread []
  rcases r.transfer?_or_ending? with ⟨t, hfresh, ht⟩ | ⟨e, hnone, he, hstatus⟩
  · rw [Server.fetch_of_transfer? h.not_busy hempty hreceive ht]
    refine .loaded rfl ⟨⟨hlinked.holds, hlinked.reset_eq, hlinked.ended_eq, hlinked.room_eq⟩, ?_, rfl,
      hempty, hleads.take hlen hdecode ht, (h.settled_of_empty hempty).clocking t⟩
    rw [Transfer.after_nil hfresh]
    show (⟨some t, s.shifter.lines⟩ : Shifter) = _
    rw [h.shifter_eq]
  · have hrequests : requests p.bytes = done := by
      rw [hleads.requests_eq, requests_append_of_none hlen hdecode _ hnone, List.append_nil]
    have hverdict : p.verdict = e.status p.ended := by
      rw [Past.verdict, hleads.ending_eq, ending_append hlen hdecode, he]
      rfl
    rw [Server.fetch_of_ending? h.not_busy hempty hreceive he p.ended, ← hverdict]
    exact .ended (hlinked.close rfl h.shifter_eq hleads (h.settled_of_empty hempty)) hrequests
      (hverdict ▸ hstatus p.ended)

/-- Less than a record is there: the session waits or, at the end of the stream, is over. -/
theorem Idle.fetch_rest (h : Idle p c done s) (hattached : s.listener.attached = some c)
    (hempty : s.outbox = []) {unread : List (List UInt8)} {inbox : List UInt8}
    (hshort : inbox.length < recordSize) (hread : unread.flatten = [])
    (hstream : s.inbox ++ c.incoming.flatten = inbox)
    (hreceive : s.receive =
      (s.reads c unread inbox, if c.ended then .disconnected else .incomplete)) :
    Fetched p done s.fetch := by
  have hidle := h.not_busy
  have hleads := h.leads
  rw [hstream] at hleads
  have hlinked := h.linked.reads hattached unread inbox
  have hrequests : requests p.bytes = done := by
    rw [hleads.requests_eq, requests_of_short hshort, List.append_nil]
  have hverdict : p.verdict = Ending.more.status c.ended := by
    rw [Past.verdict, hleads.ending_eq, ending_of_short hshort, h.linked.ended_eq]
  cases hended : c.ended with
  | true =>
    have hfetch : s.fetch = ((s.reads c unread inbox).close, p.verdict) := by
      simp only [Server.fetch, hidle, hempty, and_self, if_true, hreceive, hverdict, hended]
      rfl
    rw [hfetch]
    refine .ended (hlinked.close rfl h.shifter_eq hleads (h.settled_of_empty hempty)) hrequests ?_
    rw [hverdict, hended]
    decide
  | false =>
    have hfetch : s.fetch = (s.reads c unread inbox, .success) := by
      simp only [Server.fetch, hidle, hempty, and_self, if_true, hreceive, hended]
      rfl
    rw [hfetch]
    refine .waiting rfl ⟨hlinked, h.shifter_eq, hshort, ?_, h.settled⟩ hrequests ?_
    · show Leads p.bytes done (inbox ++ unread.flatten)
      rw [hread, List.append_nil]
      exact hleads
    · rw [hverdict, hended]
      rfl

theorem Idle.fetch (h : Idle p c done s) (hattached : s.listener.attached = some c)
    (hempty : s.outbox = []) : Fetched p done s.fetch := by
  rcases h.receive hattached with ⟨unread, raw, r, hlen, hdecode, hstream, hreceive⟩ |
    ⟨unread, inbox, hshort, hread, hstream, hreceive⟩
  · exact h.fetch_record hattached hempty hlen hdecode hstream hreceive
  · exact h.fetch_rest hattached hempty hshort hread hstream hreceive

/-- Where a session stands, and whether it is over.  In an open one nothing waits for the client
between two steps if the connection always has room. -/
inductive Standing (p : Past) : Bool → Server → Prop
  | idle {s : Server} {c : Net.Connection} {done : List Transfer} :
      Idle p c done s → (p.limited = false → s.outbox = []) → Standing p false s
  | busy {s : Server} {c : Net.Connection} {done : List Transfer} {t : Transfer}
      {current : List Bool} : Busy p c done t current s → Standing p false s
  | parted {s : Server} {c : Net.Connection} {done : List Transfer} :
      Over p c done s → Standing p true s

/-- A phase of the request under way, and the reply that it completes. -/
theorem Busy.clock (h : Busy p c done t current s) (hattached : s.listener.attached = some c)
    (tdo : Bool) :
    ∃ s' c' after, s.clock tdo = (s', .success) ∧ s'.listener.attached = some c' ∧
      Standing (p.clock tdo after) false s' := by
  have hlines : ∀ after, (p.clock tdo after).lines = after := by
    intro after
    simp only [Past.lines, Past.clock, List.getLastD_concat]
  obtain ⟨hholds, hreset, hended, hroom⟩ := h.linked
  have hleads : Leads p.bytes (done ++ [t]) (s.inbox ++ c.incoming.flatten) := by
    rw [h.inbox_eq]
    exact h.leads
  have hinbox : s.inbox.length < recordSize := by
    rw [h.inbox_eq]
    decide
  obtain ⟨after, hstep⟩ := h.clocking.step tdo
  rcases hstep with ⟨reply, hstep, hsettled⟩ | ⟨hstep, hclocking⟩
  · -- The request's last phase, after which its reply waits if it has one.
    let s₁ : Server :=
      { s with shifter := ⟨none, after⟩, outbox := reply.toList.flatMap Record.encode }
    have hidle : Idle (p.clock tdo after) c (done ++ [t]) s₁ :=
      ⟨⟨hholds, hreset, hended, hroom⟩, by rw [hlines], hinbox, hleads, hsettled⟩
    obtain ⟨s', c', hflush, hattached', hidle', hfree⟩ := Idle.flush hidle hattached
    have hclock : s.clock tdo = s₁.flush := by
      simp only [Server.clock, h.shifter_eq, Past.lines, hstep]
      cases reply with
      | none => simp [Server.flush_of_empty, s₁, h.outbox_eq]
      | some r => simp [s₁, h.outbox_eq]
    exact ⟨s', c', after, hclock.trans hflush, hattached', .idle hidle' hfree⟩
  · refine ⟨{ s with shifter := ⟨some (t.after (current ++ [tdo])), after⟩ }, c, after, ?_,
      hattached, .busy ⟨⟨hholds, hreset, hended, hroom⟩, ?_, h.inbox_eq, h.outbox_eq, h.leads,
        hclocking⟩⟩
    · simp only [Server.clock, h.shifter_eq, Past.lines, hstep]
    · rw [hlines]

theorem Idle.clock_eq (h : Idle p c done s) (tdo : Bool) : s.clock tdo = (s, .success) := by
  obtain ⟨listener, inbox, outbox, shifter, lastCycle, lastStatus⟩ := s
  have hshifter : shifter = ⟨none, p.lines⟩ := h.shifter_eq
  subst hshifter
  rfl

/-- What a step of an open session shows, and where it leaves the session: a request is clocked as
long as there are phases that have not been, and otherwise the verdict is given.  Only a connection
without room holds the session up. -/
inductive Outcome (p : Past) (o : Observation) (s' : Server) : Prop
  | clocked : o.active = true → o.status = .success → o.connected = true →
      p.levels.length < (waveforms p.start (requests p.bytes)).length →
      Standing (p.clock o.tdo o.after) false s' → Outcome p o s'
  | blocked : o.active = false → o.after = o.before → o.status = .success → o.connected = true →
      p.limited = true → Standing p false s' → Outcome p o s'
  | waited : o.active = false → o.after = o.before → o.status = .success → o.connected = true →
      p.levels = waveforms p.start (requests p.bytes) → p.verdict = .success →
      Standing p false s' → Outcome p o s'
  | ended : o.active = false → o.after = o.before → o.status = p.verdict →
      o.connected = false → p.levels = waveforms p.start (requests p.bytes) →
      p.verdict ≠ .success → Standing p true s' → Outcome p o s'

section Step

variable {cycle : Nat} {tdo : Bool} {s₁ s' : Server} {c₁ : Net.Connection} {status : Status}

def Server.accepted (s : Server) : Server := { s with listener := s.listener.accept }

theorem Server.step_eq (hserve : s.serve tdo = (s', status)) :
    s.step cycle tdo = { s' with lastCycle := cycle, lastStatus := status } := by
  simp only [step, hserve]

theorem Server.observe_eq (hserve : s.serve tdo = (s', status)) :
    s.observe cycle tdo =
      { active := s.active, tdo, before := s.lines, after := s'.lines, status,
        connected := s'.connected } := by
  rw [observe, step_eq hserve]
  rfl

theorem connected_of_attached (hattached : s.listener.attached = some c) :
    s.connected = true := by
  simp [Server.connected, Net.Listener.connected, hattached]

theorem Server.active_eq (hflush : s.accepted.flush = (s₁, .success))
    (hattached : s₁.listener.attached = some c₁) : s.active = s₁.fetch.1.shifter.busy := by
  unfold accepted at hflush
  simp only [active, hflush, connected_of_attached hattached, Bool.true_and]

/-- A client that is served is written to first. -/
theorem Server.serve_of_attached (hattached : s.listener.accept.attached = some c) (tdo : Bool) :
    s.serve tdo =
      match s.accepted.flush with
      | (s, .success) =>
        match s.fetch with
        | (s, .success) => s.clock tdo
        | failed => failed
      | failed => failed := by
  have hconnected : s.accepted.connected = true := connected_of_attached hattached
  rw [serve]
  exact if_neg (by rw [← accepted, hconnected]; decide)

theorem Server.serve_of_success (hattached : s.listener.accept.attached = some c)
    (hflush : s.accepted.flush = (s₁, .success)) (hfetch : s₁.fetch = (s', .success)) :
    s.serve tdo = s'.clock tdo := by
  simp only [serve_of_attached hattached, hflush, hfetch]

theorem Server.serve_of_failure (hattached : s.listener.accept.attached = some c)
    (hflush : s.accepted.flush = (s₁, .success)) (hfetch : s₁.fetch = (s', status))
    (hstatus : status ≠ .success) : s.serve tdo = (s', status) := by
  simp only [serve_of_attached hattached, hflush, hfetch]
  cases status with
  | success => exact absurd rfl hstatus
  | clientDisconnected => rfl
  | protocolError => rfl

theorem Linked.accepted (h : Linked p c s) : Linked p c s.accepted :=
  ⟨h.holds.accept, h.reset_eq, h.ended_eq, h.room_eq⟩

theorem Idle.accepted (h : Idle p c done s) : Idle p c done s.accepted :=
  ⟨h.linked.accepted, h.shifter_eq, h.inbox_lt, h.leads, h.settled⟩

theorem Busy.accepted (h : Busy p c done t current s) : Busy p c done t current s.accepted :=
  ⟨h.linked.accepted, h.shifter_eq, h.inbox_eq, h.outbox_eq, h.leads, h.clocking⟩

/-- The number of the step and its status are no part of where a session stands. -/
theorem Standing.stamp {finished : Bool} (h : Standing p finished s) (cycle : Nat) (status : Status) :
    Standing p finished { s with lastCycle := cycle, lastStatus := status } := by
  cases h with
  | idle h hempty =>
    obtain ⟨hholds, hreset, hended, hroom⟩ := h.linked
    exact .idle ⟨⟨hholds, hreset, hended, hroom⟩, h.shifter_eq, h.inbox_lt, h.leads, h.settled⟩ hempty
  | busy h =>
    obtain ⟨hholds, hreset, hended, hroom⟩ := h.linked
    exact .busy ⟨⟨hholds, hreset, hended, hroom⟩, h.shifter_eq, h.inbox_eq, h.outbox_eq, h.leads,
      h.clocking⟩
  | parted h => exact .parted ⟨h.letGo, h.shifter_eq, h.outbox_eq, h.done_le, h.settled⟩

theorem Standing.lines_eq {finished : Bool} (h : Standing p finished s) : s.lines = p.lines := by
  cases h with
  | idle h => rw [Server.lines, h.shifter_eq]
  | busy h => rw [Server.lines, h.shifter_eq]
  | parted h => rw [Server.lines, h.shifter_eq]

theorem Busy.outcome {a : Server} (h : Busy p c done t current a)
    (hattached : a.listener.attached = some c) (hserve : s.serve tdo = a.clock tdo)
    (hactive : s.active = true) :
    Outcome p (s.observe cycle tdo) (s.step cycle tdo) := by
  obtain ⟨s', c', after, hclock, hattached', hstanding⟩ := h.clock hattached tdo
  have hafter : s'.lines = after := by
    rw [hstanding.lines_eq, Past.lines, Past.clock, List.getLastD_concat]
  have hlt : p.levels.length < (waveforms p.start (requests p.bytes)).length := by
    rw [h.leads.requests_eq, List.append_assoc]
    exact h.clocking.length_lt _
  rw [hclock] at hserve
  rw [Server.observe_eq hserve, Server.step_eq hserve]
  refine .clocked hactive rfl (connected_of_attached hattached') hlt ?_
  rw [hafter]
  exact hstanding.stamp cycle .success

/-- A step that leaves an idle session as it is once it has written what it could. -/
theorem Idle.still (h : Idle p c done s') (hattached : s'.listener.attached = some c)
    (hserve : s.serve tdo = s'.clock tdo) (hbefore : s.lines = p.lines) (cycle : Nat) :
    s.observe cycle tdo =
        { active := s.active, tdo, before := s.lines, after := s.lines, status := .success,
          connected := true } ∧
      s.step cycle tdo = { s' with lastCycle := cycle, lastStatus := .success } := by
  rw [h.clock_eq tdo] at hserve
  refine ⟨?_, Server.step_eq hserve⟩
  rw [Server.observe_eq hserve, connected_of_attached hattached, hbefore, Server.lines, h.shifter_eq]

theorem Idle.step (h : Idle p c done s) (cycle : Nat) (tdo : Bool) :
    Outcome p (s.observe cycle tdo) (s.step cycle tdo) := by
  have hattached := h.linked.holds.attached_accept
  have hbefore : s.lines = p.lines := by rw [Server.lines, h.shifter_eq]
  have hlevels : requests p.bytes = done → p.levels = waveforms p.start (requests p.bytes) := by
    intro hrequests
    rw [hrequests, h.settled.levels_eq]
  obtain ⟨s₁, c₁, hflush, hattached₁, h₁, hfree⟩ := h.accepted.flush hattached
  have hactive := Server.active_eq hflush hattached₁
  by_cases hempty : s₁.outbox = []
  · have hfetched := h₁.fetch hattached₁ hempty
    generalize hfetch : s₁.fetch = fetched at hfetched
    rw [hfetch] at hactive
    cases hfetched with
    | loaded hattached' hbusy =>
      refine hbusy.outcome hattached' (Server.serve_of_success hattached hflush hfetch) ?_
      rw [hactive, hbusy.shifter_eq]
      rfl
    | @waiting s' c' hattached' hidle hrequests hverdict =>
      have hserve : s.serve tdo = _ := Server.serve_of_success hattached hflush hfetch
      obtain ⟨hobserve, hstep⟩ := hidle.still hattached' hserve hbefore cycle
      rw [hobserve, hstep]
      refine .waited (hactive.trans hidle.not_busy) rfl rfl rfl (hlevels hrequests) hverdict
        (Standing.stamp (.idle hidle fun _ => ?_) cycle .success)
      have houtbox : s₁.fetch.1.outbox = [] := Server.fetch_outbox hempty
      rwa [hfetch] at houtbox
    | ended hover hrequests hverdict =>
      have hserve : s.serve tdo = _ := Server.serve_of_failure hattached hflush hfetch hverdict
      rw [Server.observe_eq hserve, Server.step_eq hserve]
      refine .ended ?_ ?_ rfl ?_ (hlevels hrequests) hverdict
        ((Standing.parted hover).stamp cycle p.verdict)
      · rw [hactive, hover.shifter_eq]
        rfl
      · rw [hbefore, (Standing.parted hover).lines_eq]
      · simp [Server.connected, Net.Listener.connected, hover.letGo.attached_eq]
  · -- The client has not taken the last reply yet, so nothing is read.
    have hfetch := Server.fetch_of_blocked hempty
    have hserve : s.serve tdo = _ := Server.serve_of_success hattached hflush hfetch
    obtain ⟨hobserve, hstep⟩ := h₁.still hattached₁ hserve hbefore cycle
    rw [hfetch] at hactive
    rw [hobserve, hstep]
    refine .blocked (hactive.trans h₁.not_busy) rfl rfl rfl ?_
      (Standing.stamp (.idle h₁ hfree) cycle .success)
    by_contra hroom
    exact hempty (hfree (Bool.not_eq_true _ ▸ hroom))

/-- A busy server has nothing to write and does not look for a request. -/
theorem Busy.flush_eq (h : Busy p c done t current s) : s.flush = (s, .success) :=
  Server.flush_of_empty h.outbox_eq

theorem Busy.fetch_eq (h : Busy p c done t current s) : s.fetch = (s, .success) := by
  refine Server.fetch_of_busy ?_
  rw [h.shifter_eq]
  rfl

theorem Busy.step (h : Busy p c done t current s) (cycle : Nat) (tdo : Bool) :
    Outcome p (s.observe cycle tdo) (s.step cycle tdo) := by
  have hattached := h.linked.holds.attached_accept
  have hflush := h.accepted.flush_eq
  have hfetch := h.accepted.fetch_eq
  refine h.accepted.outcome hattached (Server.serve_of_success hattached hflush hfetch) ?_
  rw [Server.active_eq hflush hattached, hfetch, h.accepted.shifter_eq]
  rfl

theorem Standing.step (h : Standing p false s) (cycle : Nat) (tdo : Bool) :
    Outcome p (s.observe cycle tdo) (s.step cycle tdo) := by
  cases h with
  | idle h => exact h.step cycle tdo
  | busy h => exact h.step cycle tdo

theorem Over.step (h : Over p c done s) (cycle : Nat) (tdo : Bool) :
    s.observe cycle tdo =
        { active := false, tdo, before := s.lines, after := s.lines, status := .success,
          connected := false } ∧
      Standing p true (s.step cycle tdo) := by
  have haccepted : s.accepted = s := by
    rw [Server.accepted, h.letGo.accept_eq]
  have hclosed : s.connected = false := by
    rw [Server.connected, Net.Listener.connected, h.letGo.attached_eq]
    rfl
  have hserve : s.serve tdo = (s, .success) := by
    unfold Server.accepted at haccepted
    rw [Server.serve, haccepted, if_pos hclosed]
  have hactive : s.active = false := by
    unfold Server.accepted at haccepted
    rw [Server.active, haccepted, Server.flush_of_empty h.outbox_eq]
    exact congrArg (· && _) hclosed
  rw [Server.observe_eq hserve, Server.step_eq hserve, hactive, hclosed]
  exact ⟨rfl, (Standing.parted h).stamp cycle .success⟩

end Step

end PinBench.Jtag
