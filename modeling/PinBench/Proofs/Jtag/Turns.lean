import PinBench.Proofs.Jtag.Stream
import PinBench.Proofs.Net.Clients

/-! A debug server with many clients, as one of them sees it.  `seen` leaves out the connections of
the others.  What a client sees while it is its turn is a server with one client, and what the
others do it does not see. -/

namespace PinBench

namespace Net.Listener

/-- The listener without the connections of other clients. -/
def seenBy (l : Listener) (client : Nat) : Listener :=
  { l with
    queue := l.queue.filter (·.client == client)
    attached := l.attached.filter (·.client == client)
    parted := l.parted.filter (·.client == client) }

variable {l : Listener} {client : Nat} {c c' : Connection}

theorem At.holds (h : l.At client (.served c)) : (l.seenBy client).Holds client c := by
  refine ⟨h.client_of_served.2, ?_, .inr ⟨h.queue_eq, h.attached_eq⟩⟩
  intro p hp
  have hparted : (l.seenBy client).parted = [] := h.parted_eq
  rw [hparted] at hp
  cases hp

theorem At.served_of_holds (h : (l.seenBy client).Holds client c) (hat : l.At client (.served c')) :
    c = c' := by
  rcases h.place with ⟨-, hnone⟩ | ⟨-, hattached⟩
  · exact absurd (hat.attached_eq.symm.trans hnone) (by simp [Stage.attached])
  · exact Option.some.inj (hattached.symm.trans hat.attached_eq)

theorem At.not_holds (h : l.At client (.parted c')) : ¬(l.seenBy client).Holds client c := by
  intro hholds
  rcases hholds.place with ⟨hqueue, -⟩ | ⟨-, hattached⟩
  · exact absurd (hqueue.symm.trans h.queue_eq) (by simp [Stage.queue])
  · exact absurd (hattached.symm.trans h.attached_eq) (by simp [Stage.attached])

theorem at_of_letGo (h : (l.seenBy client).LetGo client c) : l.At client (.parted c) := by
  obtain ⟨earlier, hparted, hne⟩ := h.parted_eq
  have hnil : earlier = [] := by
    rw [List.eq_nil_iff_forall_not_mem]
    intro p hp
    have hmem : p ∈ (l.seenBy client).parted := by
      rw [hparted]
      exact List.mem_append_left _ hp
    exact hne p hp (by simpa using (List.mem_filter.mp hmem).2)
  rw [hnil] at hparted
  exact ⟨h.queue_eq, h.attached_eq, hparted⟩

theorem seenBy_attach (hc : c.client = client) :
    ({ l with attached := some c } : Listener).seenBy client =
      { l.seenBy client with attached := some c } := by
  simp [seenBy, Option.filter, hc]

theorem seenBy_detach (l : Listener) (client : Nat) :
    l.detach.seenBy client = (l.seenBy client).detach := by
  cases hattached : l.attached with
  | none => simp [detach, seenBy, hattached]
  | some c =>
    by_cases hc : c.client = client <;>
      simp [detach, seenBy, hattached, Option.filter, hc, Connection.close]

section Update

variable {f : Connection → Connection} (hf : ∀ c, (f c).client = c.client)
include hf

theorem seenBy_update_self :
    (l.update client f).seenBy client = (l.seenBy client).update client f := by
  have hmap : ∀ xs : List Connection,
      (xs.filter (·.client == client)).map (fun c => if c.client = client then f c else c) =
        (xs.filter (·.client == client)).map f := by
    intro xs
    refine List.map_congr_left fun c hc => if_pos ?_
    simpa using (List.mem_filter.mp hc).2
  have hattached : (l.attached.filter (·.client == client)).map
      (fun c => if c.client = client then f c else c) =
        (l.attached.filter (·.client == client)).map f := by
    cases hfilter : l.attached.filter (·.client == client) with
    | none => rfl
    | some c =>
      have hc : c.client = client := by
        simpa using (Option.filter_eq_some_iff.mp hfilter).2
      simp [hc]
  simp only [seenBy, update, filter_update_self hf, optionFilter_update_self hf, hmap, hattached]

theorem seenBy_update_other {other : Nat} (hne : other ≠ client) :
    (l.update other f).seenBy client = l.seenBy client := by
  simp only [seenBy, update, filter_update_other hf _ hne, optionFilter_update_other hf _ hne]

end Update

theorem knows_seenBy (l : Listener) (client : Nat) :
    (l.seenBy client).knows client = l.knows client := by
  have hany : ∀ xs : List Connection, (xs.filter (·.client == client)).any (·.client == client) =
      xs.any (·.client == client) := by
    intro xs
    rw [List.any_filter]
    simp
  have hattached : (l.attached.filter (·.client == client)).toList =
      l.attached.toList.filter (·.client == client) := by
    cases l.attached with
    | none => rfl
    | some c => by_cases hc : c.client = client <;> simp [Option.filter, hc]
  simp only [knows, connections, seenBy, hattached, List.any_append, hany]

theorem seenBy_meet_self {action : ClientAction} {f : Connection → Connection}
    (hown : action.client = client) (heffect : action.effect = some f) :
    (l.meet action).seenBy client = (l.seenBy client).meet action := by
  rw [meet_of_effect heffect, meet_of_effect heffect, hown, knows_seenBy]
  split
  · exact seenBy_update_self (ClientAction.client_of_effect heffect)
  · rfl

/-- A client does not see what another one does. -/
theorem seenBy_meet_other (hreachable : l.reachable = true) {action : ClientAction}
    (hother : action.client ≠ client) : (l.meet action).seenBy client = l.seenBy client := by
  cases heffect : action.effect with
  | some f =>
    rw [meet_of_effect heffect]
    split
    · exact seenBy_update_other (ClientAction.client_of_effect heffect) hother
    · rfl
  | none =>
    cases action with
    | send | close | abort | limit => cases heffect
    | connect other =>
      rw [meet_connect hreachable]
      have hne : other ≠ client := hother
      simp [seenBy, Connection.fresh, hne]

end Net.Listener

namespace Jtag

def Event.action? : Event → Option Net.ClientAction
  | .client action => some action
  | _ => none

/-- What clients do in some events. -/
def actionsOf (events : List Event) : List Net.ClientAction := events.filterMap Event.action?

theorem actionsOf_append (events more : List Event) :
    actionsOf (events ++ more) = actionsOf events ++ actionsOf more := List.filterMap_append

namespace Server

/-- The server without the connections of other clients. -/
def seen (s : Server) (client : Nat) : Server := { s with listener := s.listener.seenBy client }

variable {s : Server} {client : Nat} {c : Net.Connection}

theorem meet_client (s : Server) (action : Net.ClientAction) :
    s.meet (.client action) = { s with listener := s.listener.meet action } := by
  simp only [meet, Net.Listener.meet]
  cases s.listener.act action <;> rfl

/-! ### What a step can do -/

theorem readUpTo_eq (c : Net.Connection) (n : Nat) :
    ∃ bytes unread, c.readUpTo n = (bytes, { c with incoming := unread }) := by
  unfold Net.Connection.readUpTo
  split
  · exact ⟨[], c.incoming, rfl⟩
  · exact ⟨_, _, rfl⟩

/-- A record that is read is a whole one, and then nothing is left in the inbox. -/
theorem receive_reads (hattached : s.listener.attached = some c) :
    ∃ unread inbox received, s.receive = (s.reads c unread inbox, received) ∧
      ∀ r, received = .record r →
        inbox = [] ∧ ∃ raw, raw.length = recordSize ∧ Record.decode? raw = some r := by
  obtain ⟨bytes, unread, hread⟩ := readUpTo_eq c (recordSize - s.inbox.length)
  simp only [receive, hattached, hread]
  cases hdecode : Record.decode? (s.inbox ++ bytes) with
  | some r =>
    refine ⟨unread, [], .record r, rfl, fun r' hr' => ⟨rfl, (s.inbox ++ bytes).take recordSize, ?_⟩⟩
    obtain rfl := Received.record.inj hr'
    have hlong : recordSize ≤ (s.inbox ++ bytes).length := by
      refine Nat.le_of_not_lt fun hshort => ?_
      rw [(Record.decode?_eq_none_iff _).mpr hshort] at hdecode
      cases hdecode
    have hlen : ((s.inbox ++ bytes).take recordSize).length = recordSize :=
      List.length_take_of_le hlong
    refine ⟨hlen, ?_⟩
    rw [← Record.decode?_append (Nat.le_of_eq hlen.symm) ((s.inbox ++ bytes).drop recordSize),
      List.take_append_drop, hdecode]
  | none =>
    cases Net.Connection.tail { c with incoming := unread } with
    | waiting => exact ⟨unread, s.inbox ++ bytes, .incomplete, rfl, fun _ h => by cases h⟩
    | ended | failed => exact ⟨unread, s.inbox ++ bytes, .disconnected, rfl, fun _ h => by cases h⟩

/-- What writing what waits comes to when `c` is served. -/
inductive Flushes (s : Server) (c : Net.Connection) : Server × Status → Prop
  | taken {c' : Net.Connection} {outbox : List UInt8} :
      c.Writes s.outbox c' outbox → (c.reset = true → s.outbox = []) →
        Flushes s c
          ({ s with listener := { s.listener with attached := some c' }, outbox }, .success)
  | lost : c.reset = true → s.outbox ≠ [] → Flushes s c (s.close, .clientDisconnected)

theorem flush_cases (hattached : s.listener.attached = some c) : s.Flushes c s.flush := by
  by_cases hopen : c.reset = true → s.outbox = []
  · obtain ⟨c', outbox, hwrites, hflush⟩ := flush_of_open hattached hopen
    rw [hflush]
    exact .taken hwrites hopen
  · obtain ⟨hreset, hempty⟩ := Classical.not_imp.mp hopen
    have hflush : s.flush = (s.close, .clientDisconnected) := by
      simp [flush, hattached, hempty, Net.Connection.write?_reset hreset, fail]
    rw [hflush]
    exact .lost hreset hempty

theorem flush_failed (hattached : s.listener.attached = some c) (hstatus : s.flush.2 ≠ .success) :
    s.flush.1 = s.close := by
  have hcases := flush_cases hattached
  generalize s.flush = flushed at hcases hstatus
  cases hcases with
  | taken => exact absurd rfl hstatus
  | lost => rfl

/-- What looking for a request comes to when `c` is served. -/
inductive Fetches (s : Server) (c : Net.Connection) : Server × Status → Prop
  | held : s.shifter.busy = true ∨ s.outbox ≠ [] → Fetches s c (s, .success)
  | waiting {unread : List (List UInt8)} {inbox : List UInt8} :
      s.shifter.busy = false → s.outbox = [] → Fetches s c (s.reads c unread inbox, .success)
  | loaded {unread : List (List UInt8)} {raw : List UInt8} {r : Record} {t : Transfer} :
      s.shifter.busy = false → s.outbox = [] → raw.length = recordSize →
        Record.decode? raw = some r → r.transfer? = some t →
          Fetches s c
            ({ s.reads c unread [] with shifter := { s.shifter with transfer := some t } }, .success)
  | ended {unread : List (List UInt8)} {inbox : List UInt8} {status : Status} :
      s.shifter.busy = false → status ≠ .success →
        Fetches s c ((s.reads c unread inbox).close, status)

theorem fetch_cases (hattached : s.listener.attached = some c) : s.Fetches c s.fetch := by
  by_cases hready : s.shifter.busy = false ∧ s.outbox = []
  · obtain ⟨hidle, hempty⟩ := hready
    obtain ⟨unread, inbox, received, hreceive, hrecord⟩ := receive_reads hattached
    cases received with
    | record r =>
      obtain ⟨rfl, raw, hlen, hdecode⟩ := hrecord r rfl
      rcases r.transfer?_or_ending? with ⟨t, -, ht⟩ | ⟨e, -, he, hstatus⟩
      · rw [fetch_of_transfer? hidle hempty hreceive ht]
        exact .loaded hidle hempty hlen hdecode ht
      · rw [fetch_of_ending? hidle hempty hreceive he false]
        exact .ended hidle (hstatus false)
    | incomplete =>
      have hfetch : s.fetch = (s.reads c unread inbox, .success) := by
        simp only [fetch, hidle, hempty, and_self, if_true, hreceive]
      rw [hfetch]
      exact .waiting hidle hempty
    | disconnected =>
      have hfetch : s.fetch = ((s.reads c unread inbox).close, .clientDisconnected) := by
        simp only [fetch, hidle, hempty, and_self, if_true, hreceive]
        rfl
      rw [hfetch]
      exact .ended hidle (by decide)
  · rw [fetch, if_neg hready]
    refine .held ?_
    cases hbusy : s.shifter.busy with
    | true => exact .inl rfl
    | false => exact .inr fun hempty => hready ⟨hbusy, hempty⟩

/-- What clocking one phase comes to when `c` is served. -/
inductive Clocks (s : Server) (c : Net.Connection) (tdo : Bool) : Server × Status → Prop
  | quiet : (s.shifter.step tdo).2 = none →
      Clocks s c tdo ({ s with shifter := (s.shifter.step tdo).1 }, .success)
  | replied {r : Record} {c' : Net.Connection} {outbox : List UInt8} :
      (s.shifter.step tdo).2 = some r → c.reset = false →
        c.Writes (s.outbox ++ r.encode) c' outbox →
          Clocks s c tdo
            ({ s with
                shifter := (s.shifter.step tdo).1
                listener := { s.listener with attached := some c' }
                outbox }, .success)
  | lost {r : Record} : (s.shifter.step tdo).2 = some r → c.reset = true →
      Clocks s c tdo
        (({ s with shifter := (s.shifter.step tdo).1 } : Server).close, .clientDisconnected)

theorem clock_of_reply {tdo : Bool} {r : Record} (hreply : (s.shifter.step tdo).2 = some r) :
    s.clock tdo =
      ({ s with shifter := (s.shifter.step tdo).1, outbox := s.outbox ++ r.encode } :
        Server).flush := by
  obtain ⟨shifter, reply, hstep⟩ : ∃ shifter reply, s.shifter.step tdo = (shifter, reply) :=
    ⟨_, _, rfl⟩
  rw [hstep] at hreply
  obtain rfl : reply = some r := hreply
  simp only [clock, hstep]

theorem clock_of_quiet {tdo : Bool} (hquiet : (s.shifter.step tdo).2 = none) :
    s.clock tdo = ({ s with shifter := (s.shifter.step tdo).1 }, .success) := by
  obtain ⟨shifter, reply, hstep⟩ : ∃ shifter reply, s.shifter.step tdo = (shifter, reply) :=
    ⟨_, _, rfl⟩
  rw [hstep] at hquiet
  obtain rfl : reply = none := hquiet
  simp only [clock, hstep]

theorem clock_cases (hattached : s.listener.attached = some c) (tdo : Bool) :
    s.Clocks c tdo (s.clock tdo) := by
  cases hreply : (s.shifter.step tdo).2 with
  | none =>
    rw [clock_of_quiet hreply]
    exact .quiet hreply
  | some r =>
    have hwaits : s.outbox ++ r.encode ≠ [] := by
      have hlen := r.length_encode
      intro hnil
      rw [(List.append_eq_nil_iff.mp hnil).2] at hlen
      cases hlen
    rw [clock_of_reply hreply]
    have hcases := flush_cases (s := { s with
      shifter := (s.shifter.step tdo).1, outbox := s.outbox ++ r.encode }) hattached
    generalize flush _ = flushed at hcases
    cases hcases with
    | taken hwrites hopen =>
      refine .replied hreply ?_ hwrites
      exact Bool.not_eq_true _ ▸ fun hreset => hwaits (hopen hreset)
    | lost hreset => exact .lost hreply hreset

/-- What a step comes to: there is no client, or the step ends while it writes what waits, while it
looks for a request or with a phase of one. -/
inductive Serves (s : Server) (tdo : Bool) : Prop
  | vacant : s.accepted.listener.attached = none → s.serve tdo = (s.accepted, .success) →
      Serves s tdo
  | unwritten {c : Net.Connection} {s' : Server} {status : Status} :
      s.accepted.listener.attached = some c → s.accepted.flush = (s', status) →
        status ≠ .success → s.serve tdo = (s', status) → Serves s tdo
  | unread {c c₁ : Net.Connection} {s₁ s' : Server} {status : Status} :
      s.accepted.listener.attached = some c → s.accepted.flush = (s₁, .success) →
        s₁.listener.attached = some c₁ → s₁.fetch = (s', status) → status ≠ .success →
          s.serve tdo = (s', status) → Serves s tdo
  | clocked {c c₁ c₂ : Net.Connection} {s₁ s₂ : Server} :
      s.accepted.listener.attached = some c → s.accepted.flush = (s₁, .success) →
        s₁.listener.attached = some c₁ → s₁.fetch = (s₂, .success) →
          s₂.listener.attached = some c₂ → s.serve tdo = s₂.clock tdo → Serves s tdo

theorem attached_flush (hattached : s.listener.attached = some c) {s' : Server}
    (hflush : s.flush = (s', .success)) : ∃ c', s'.listener.attached = some c' := by
  have hcases := flush_cases hattached
  rw [hflush] at hcases
  cases hcases with
  | taken => exact ⟨_, rfl⟩

theorem attached_fetch (hattached : s.listener.attached = some c) {s' : Server}
    (hfetch : s.fetch = (s', .success)) : ∃ c', s'.listener.attached = some c' := by
  have hcases := fetch_cases hattached
  rw [hfetch] at hcases
  cases hcases with
  | held => exact ⟨c, hattached⟩
  | waiting | loaded => exact ⟨_, rfl⟩
  | ended _ hnot => exact absurd rfl hnot

theorem serves (s : Server) (tdo : Bool) : s.Serves tdo := by
  cases hattached : s.accepted.listener.attached with
  | none =>
    refine .vacant hattached ?_
    have hvacant : s.accepted.connected = false := by
      rw [connected, Net.Listener.connected, hattached]
      rfl
    unfold accepted at hvacant ⊢
    rw [serve, if_pos hvacant]
  | some c =>
    obtain ⟨s₁, status, hflush⟩ : ∃ s₁ status, s.accepted.flush = (s₁, status) := ⟨_, _, rfl⟩
    by_cases hwritten : status = .success
    · subst hwritten
      obtain ⟨c₁, hattached₁⟩ := attached_flush hattached hflush
      obtain ⟨s₂, status, hfetch⟩ : ∃ s₂ status, s₁.fetch = (s₂, status) := ⟨_, _, rfl⟩
      by_cases hread : status = .success
      · subst hread
        obtain ⟨c₂, hattached₂⟩ := attached_fetch hattached₁ hfetch
        exact .clocked hattached hflush hattached₁ hfetch hattached₂
          (serve_of_success hattached hflush hfetch)
      · exact .unread hattached hflush hattached₁ hfetch hread
          (serve_of_failure hattached hflush hfetch hread)
    · refine .unwritten hattached hflush hwritten ?_
      rw [serve_of_attached hattached, hflush]
      cases status with
      | success => exact absurd rfl hwritten
      | clientDisconnected | protocolError => rfl

/-- What holds once the server has accepted, and is kept by each part of a step, holds after it. -/
theorem serve_induction {P : Server → Prop} (hstart : P s.accepted)
    (hflush : ∀ {s c}, s.listener.attached = some c → P s → P s.flush.1)
    (hfetch : ∀ {s c}, s.listener.attached = some c → P s → P s.fetch.1)
    (hclock : ∀ {s c}, s.listener.attached = some c → ∀ tdo, P s → P (s.clock tdo).1)
    (tdo : Bool) : P (s.serve tdo).1 := by
  cases s.serves tdo with
  | vacant _ hserve => rwa [hserve]
  | unwritten hattached hwrite _ hserve =>
    have h := hflush hattached hstart
    rw [hwrite] at h
    rwa [hserve]
  | unread hattached hwrite hattached₁ hread _ hserve =>
    have h := hflush hattached hstart
    rw [hwrite] at h
    have h := hfetch hattached₁ h
    rw [hread] at h
    rwa [hserve]
  | clocked hattached hwrite hattached₁ hread hattached₂ hserve =>
    have h := hflush hattached hstart
    rw [hwrite] at h
    have h := hfetch hattached₁ h
    rw [hread] at h
    rw [hserve]
    exact hclock hattached₂ tdo h

/-! ### A step of the client that is served -/

theorem seen_close (s : Server) (client : Nat) : s.close.seen client = (s.seen client).close := by
  simp only [close, seen, Net.Listener.seenBy_detach]

/-- Other clients do not matter to what is read. -/
theorem receive_seen (h : s.listener.At client (.served c)) :
    (s.seen client).receive = (s.receive.1.seen client, s.receive.2) := by
  obtain ⟨hattached, hc⟩ := h.client_of_served
  have hseen : (s.seen client).listener.attached = some c := h.attached_eq
  have hinbox : (s.seen client).inbox = s.inbox := rfl
  obtain ⟨bytes, unread, hread⟩ := readUpTo_eq c (recordSize - s.inbox.length)
  have hattach := Net.Listener.seenBy_attach (l := s.listener) (c := { c with incoming := unread }) hc
  simp only [receive, hattached, hseen, hinbox, hread]
  cases Record.decode? (s.inbox ++ bytes) with
  | some r => simp [seen, hattach]
  | none => cases Net.Connection.tail { c with incoming := unread } <;> simp [seen, hattach]

theorem flush_seen (h : s.listener.At client (.served c)) :
    (s.seen client).flush = (s.flush.1.seen client, s.flush.2) := by
  obtain ⟨hattached, hc⟩ := h.client_of_served
  have hseen : (s.seen client).listener.attached = some c := h.attached_eq
  have houtbox : (s.seen client).outbox = s.outbox := rfl
  simp only [flush, hattached, hseen, houtbox, fail]
  by_cases hempty : s.outbox = []
  · simp only [hempty, List.isEmpty_nil, if_true]
  · rw [if_neg (by simpa using hempty), if_neg (by simpa using hempty)]
    cases hreset : c.reset with
    | true => rw [Net.Connection.write?_reset hreset, seen_close]
    | false =>
      obtain ⟨c', outbox, hwrite, hwrites⟩ := Net.Connection.write?_of_open hreset s.outbox
      have hattach := Net.Listener.seenBy_attach (l := s.listener) (hwrites.client_eq.trans hc)
      simp only [hwrite, seen, hattach]

theorem fetch_seen (h : s.listener.At client (.served c)) :
    (s.seen client).fetch = (s.fetch.1.seen client, s.fetch.2) := by
  have hbusy : (s.seen client).shifter.busy = s.shifter.busy := rfl
  have houtbox : (s.seen client).outbox = s.outbox := rfl
  have hreceive := receive_seen h
  obtain ⟨s', received, hreceived⟩ : ∃ s' received, s.receive = (s', received) := ⟨_, _, rfl⟩
  rw [hreceived] at hreceive
  simp only [fetch, hbusy, houtbox, hreceive, hreceived, fail]
  by_cases hready : s.shifter.busy = false ∧ s.outbox = []
  · rw [if_pos hready, if_pos hready]
    cases received with
    | incomplete => rfl
    | disconnected => rw [seen_close]
    | record r =>
      cases hcommand : r.command with
      | error e =>
        simp only [hcommand]
        rw [seen_close]
      | ok command =>
        simp only [hcommand]
        cases command with
        | stop => rw [seen_close]
        | reset | tmsSequence | scan | scanFlipTms => rfl
  · rw [if_neg hready, if_neg hready]

/-- Writing leaves the client served, unless it ends the session. -/
theorem flush_served (h : s.listener.At client (.served c)) (hstatus : s.flush.2 = .success) :
    ∃ c', s.flush.1.listener.At client (.served c') := by
  have hcases := flush_cases h.client_of_served.1
  generalize s.flush = flushed at hcases hstatus
  cases hcases with
  | taken hwrites => exact ⟨_, h.serve hwrites.sameEnd⟩
  | lost => cases hstatus

/-- Looking for a request leaves the client served, unless it ends the session. -/
theorem fetch_served (h : s.listener.At client (.served c)) (hstatus : s.fetch.2 = .success) :
    ∃ c', s.fetch.1.listener.At client (.served c') := by
  have hcases := fetch_cases h.client_of_served.1
  generalize s.fetch = fetched at hcases hstatus
  cases hcases with
  | held => exact ⟨c, h⟩
  | waiting | loaded => exact ⟨_, h.serve ⟨rfl, rfl, rfl, id⟩⟩
  | ended _ hnot => exact absurd hstatus hnot

theorem clock_seen (h : s.listener.At client (.served c)) (tdo : Bool) :
    (s.seen client).clock tdo = ((s.clock tdo).1.seen client, (s.clock tdo).2) := by
  have hshifter : (s.seen client).shifter = s.shifter := rfl
  cases hreply : (s.shifter.step tdo).2 with
  | none =>
    rw [clock_of_quiet hreply, clock_of_quiet (hshifter ▸ hreply)]
    rfl
  | some r =>
    rw [clock_of_reply hreply, clock_of_reply (hshifter ▸ hreply)]
    exact flush_seen (s := { s with
      shifter := (s.shifter.step tdo).1, outbox := s.outbox ++ r.encode }) h

theorem accepted_of_served (h : s.listener.At client (.served c)) : s.accepted = s := by
  rw [accepted, Net.Listener.accept_of_attached h.client_of_served.1]

theorem attached_accept (h : s.listener.At client (.served c)) :
    s.listener.accept.attached = some c := by
  rw [Net.Listener.accept_of_attached h.client_of_served.1]
  exact h.client_of_served.1

/-- A client that is served sees itself served. -/
theorem seen_served (h : s.listener.At client (.served c)) :
    (s.seen client).accepted = s.seen client ∧
      (s.seen client).listener.accept.attached = some c := by
  have hseen : (s.seen client).listener.attached = some c := h.attached_eq
  rw [accepted, Net.Listener.accept_of_attached hseen]
  exact ⟨rfl, hseen⟩

theorem serve_seen (h : s.listener.At client (.served c)) (tdo : Bool) :
    (s.seen client).serve tdo = ((s.serve tdo).1.seen client, (s.serve tdo).2) := by
  obtain ⟨haccepted', hattached'⟩ := seen_served h
  have hattached := attached_accept h
  have hflush' := flush_seen h
  have hwritten := flush_served h
  obtain ⟨s₁, status, hflush⟩ : ∃ s₁ status, s.flush = (s₁, status) := ⟨_, _, rfl⟩
  rw [hflush] at hflush' hwritten
  rw [← haccepted'] at hflush'
  rw [← accepted_of_served h] at hflush
  rw [serve_of_attached hattached, serve_of_attached hattached', hflush, hflush']
  cases status with
  | clientDisconnected | protocolError => rfl
  | success =>
    obtain ⟨c₁, hserved⟩ := hwritten rfl
    have hfetch' := fetch_seen hserved
    have hread := fetch_served hserved
    obtain ⟨s₂, status, hfetch⟩ : ∃ s₂ status, s₁.fetch = (s₂, status) := ⟨_, _, rfl⟩
    rw [hfetch] at hfetch' hread
    simp only [hfetch, hfetch']
    cases status with
    | clientDisconnected | protocolError => rfl
    | success =>
      obtain ⟨c₂, hserved⟩ := hread rfl
      exact clock_seen hserved tdo

/-- While a client is served, a step is that of a server with one client. -/
theorem step_seen (h : s.listener.At client (.served c)) (cycle : Nat) (tdo : Bool) :
    (s.seen client).step cycle tdo = (s.step cycle tdo).seen client := by
  rw [step, step, serve_seen h]
  rfl

theorem active_seen (h : s.listener.At client (.served c)) :
    (s.seen client).active = s.active := by
  have haccepted := accepted_of_served h
  have haccepted' := (seen_served h).1
  unfold accepted at haccepted haccepted'
  rw [active, active, haccepted, haccepted', flush_seen h]
  by_cases hstatus : s.flush.2 = .success
  · obtain ⟨c₁, hserved⟩ := flush_served h hstatus
    have hseen : (s.flush.1.seen client).connected = true :=
      connected_of_attached hserved.attached_eq
    simp only [fetch_seen hserved, connected_of_attached hserved.client_of_served.1, hseen]
    rfl
  · -- Nobody is served any more.
    have hvacant : s.close.connected = false := by
      simp [close, connected, Net.Listener.connected, Net.Listener.detach, h.client_of_served.1]
    have hvacant' : (s.close.seen client).connected = false := by
      simp [close, connected, Net.Listener.connected, Net.Listener.detach, h.client_of_served.1,
        seen, Net.Listener.seenBy]
    simp only [flush_failed h.client_of_served.1 hstatus, hvacant, hvacant', Bool.false_and]

/-! ### What the others see -/

theorem accepted_accepted (s : Server) : s.accepted.accepted = s.accepted := by
  simp only [accepted, Net.Listener.accept_accept]

theorem serve_accepted (s : Server) (tdo : Bool) : s.accepted.serve tdo = s.serve tdo := by
  have h := accepted_accepted s
  unfold accepted at h ⊢
  rw [serve, serve, h]

theorem step_accepted (s : Server) (cycle : Nat) (tdo : Bool) :
    s.accepted.step cycle tdo = s.step cycle tdo := by
  rw [step, step, serve_accepted]

theorem flush_tends (hattached : s.listener.attached = some c) :
    Net.Listener.Tends s.listener s.flush.1.listener := by
  have hcases := flush_cases hattached
  generalize s.flush = flushed at hcases
  cases hcases with
  | taken hwrites => exact Net.Listener.Tends.refl.serve hattached hwrites.sameEnd
  | lost => exact Net.Listener.Tends.refl.detach

theorem fetch_tends (hattached : s.listener.attached = some c) :
    Net.Listener.Tends s.listener s.fetch.1.listener := by
  have hreads : ∀ unread inbox,
      Net.Listener.Tends s.listener (s.reads c unread inbox).listener := fun unread inbox =>
    Net.Listener.Tends.refl.serve hattached ⟨rfl, rfl, rfl, id⟩
  have hcases := fetch_cases hattached
  generalize s.fetch = fetched at hcases
  cases hcases with
  | held => exact .refl
  | waiting => exact hreads _ _
  | loaded => exact hreads _ []
  | ended => exact (hreads _ _).detach

theorem clock_tends (hattached : s.listener.attached = some c) (tdo : Bool) :
    Net.Listener.Tends s.listener (s.clock tdo).1.listener := by
  have hcases := clock_cases hattached tdo
  generalize s.clock tdo = clocked at hcases
  cases hcases with
  | quiet => exact .refl
  | replied _ _ hwrites => exact Net.Listener.Tends.refl.serve hattached hwrites.sameEnd
  | lost => exact Net.Listener.Tends.refl.detach

theorem step_tends (s : Server) (cycle : Nat) (tdo : Bool) :
    Net.Listener.Tends s.listener.accept (s.step cycle tdo).listener :=
  serve_induction (P := fun s' => Net.Listener.Tends s.accepted.listener s'.listener) .refl
    (fun hattached h => h.trans (flush_tends hattached))
    (fun hattached h => h.trans (fetch_tends hattached))
    (fun hattached tdo h => h.trans (clock_tends hattached tdo)) tdo

/-- What the clients and the server have made of the listener. -/
theorem became_run (interface : Net.Interface) (events : List Event) :
    Net.Listener.Became interface (actionsOf events)
      ((Server.listen interface true).run events).listener := by
  induction events using List.reverseRecOn with
  | nil => exact .start
  | append_singleton events e ih =>
    rw [run_concat, actionsOf_append]
    cases e with
    | client action =>
      rw [meet_client]
      exact ih.meet action
    | step cycle tdo =>
      rw [show actionsOf [Event.step cycle tdo] = [] from rfl, List.append_nil]
      exact ih.accept.tends (step_tends _ cycle tdo)
    | close =>
      rw [show actionsOf [Event.close] = [] from rfl, List.append_nil]
      exact ih.tends Net.Listener.Tends.refl.detach

end Server

end Jtag

end PinBench
