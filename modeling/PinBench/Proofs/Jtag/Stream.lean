import PinBench.Proofs.Jtag.Answers
import PinBench.Proofs.Jtag.Serving

/-! A session follows its stream.  `session_follows_stream` is the law of a whole session: the
levels of the lines, the bytes written back and the end of the session depend on the bytes of the
stream and on data-out, and not on how the bytes were split or when they came.  A connection that
blocks holds the session up and keeps back the end of what is written. -/

namespace PinBench.Jtag

/-- The levels after the active steps. -/
def levelsOf (seen : List Observation) : List Lines := (seen.filter (·.active)).map (·.after)

/-- Data-out in the active steps. -/
def tdosOf (seen : List Observation) : List Bool := (seen.filter (·.active)).map (·.tdo)

/-- Whether some step has ended the session. -/
def isOver (seen : List Observation) : Bool := seen.any (·.status != .success)

/-- Whether the next step is active, what it comes to and whether the client is served after it, by
the stream and the steps so far.  Requests are clocked as long as there are any. -/
def expected (start : Lines) (stream : List UInt8) (ended : Bool) (seen : List Observation) :
    Bool × Status × Bool :=
  if isOver seen then (false, .success, false)
  else if (levelsOf seen).length < (waveforms start (requests stream)).length then
    (true, .success, true)
  else (false, (ending stream).status ended, (ending stream).status ended == .success)

/-- The past of a session that found the lines at `start`. -/
def pastOf (client : Nat) (start : Lines) (events : List Event) (seen : List Observation) : Past :=
  { client, start, bytes := arrived events, ended := hungUp events, limited := limited events
    levels := levelsOf seen, tdos := tdosOf seen }

theorem Server.run_append (s : Server) (events more : List Event) :
    s.run (events ++ more) = (s.run events).run more := List.foldl_append

theorem Server.run_concat (s : Server) (events : List Event) (e : Event) :
    s.run (events ++ [e]) = (s.run events).meet e := by
  simp [run]

theorem Server.history_concat (s : Server) (events : List Event) (e : Event) :
    s.history (events ++ [e]) = s.history events ++ (s.run events).shows e := by
  induction events generalizing s with
  | nil => simp [history, run]
  | cons first rest ih =>
    rw [List.cons_append, history, ih, history, List.append_assoc]
    rfl

section Past

variable {client : Nat} {start : Lines} {events : List Event} {seen : List Observation}

theorem pastOf_send (bytes : List UInt8) :
    pastOf client start (events ++ [.client (.send client bytes)]) seen =
      (pastOf client start events seen).arrive bytes := by
  simp [pastOf, Past.arrive, arrived, hungUp, limited, Event.bytes, Event.endsStream, Event.limits]

theorem pastOf_hangUp :
    pastOf client start (events ++ [.client (.close client)]) seen =
      (pastOf client start events seen).hangUp := by
  simp [pastOf, Past.hangUp, arrived, hungUp, limited, Event.bytes, Event.endsStream, Event.limits]

theorem pastOf_limit (room : Option Nat) :
    pastOf client start (events ++ [.client (.limit client room)]) seen =
      (pastOf client start events seen).limit room := by
  simp [pastOf, Past.limit, arrived, hungUp, limited, Event.bytes, Event.endsStream, Event.limits]

theorem pastOf_active {cycle : Nat} {tdo : Bool} {o : Observation} (hactive : o.active = true) :
    pastOf client start (events ++ [.step cycle tdo]) (seen ++ [o]) =
      (pastOf client start events seen).clock o.tdo o.after := by
  simp [pastOf, Past.clock, arrived, hungUp, limited, Event.bytes, Event.endsStream, Event.limits,
    levelsOf, tdosOf, hactive]

theorem pastOf_inactive {cycle : Nat} {tdo : Bool} {o : Observation}
    (hinactive : o.active = false) :
    pastOf client start (events ++ [.step cycle tdo]) (seen ++ [o]) =
      pastOf client start events seen := by
  simp [pastOf, arrived, hungUp, limited, Event.bytes, Event.endsStream, Event.limits, levelsOf,
    tdosOf, hinactive]

end Past

section Standing

variable {p : Past} {finished : Bool} {s : Server}

/-- Clients do not reach what the server has not written yet. -/
theorem Server.outbox_meet_client (s : Server) (action : Net.ClientAction) :
    (s.meet (.client action)).outbox = s.outbox := by
  simp only [meet]
  split <;> rfl

theorem Standing.send (h : Standing p finished s) (new : List UInt8) :
    Standing (p.arrive new) finished (s.meet (.client (.send p.client new))) := by
  cases h with
  | idle h hfree => exact .idle (h.send new) fun hp => (s.outbox_meet_client _).trans (hfree hp)
  | busy h => exact .busy (h.send new)
  | parted h => exact .parted (h.send new)

theorem Standing.hangUp (h : Standing p finished s) :
    Standing p.hangUp finished (s.meet (.client (.close p.client))) := by
  cases h with
  | idle h hfree => exact .idle h.hangUp fun hp => (s.outbox_meet_client _).trans (hfree hp)
  | busy h => exact .busy h.hangUp
  | parted h => exact .parted h.hangUp

theorem Standing.limit (h : Standing p finished s) (room : Option Nat) :
    Standing (p.limit room) finished (s.meet (.client (.limit p.client room))) := by
  cases h with
  | idle h hfree =>
    refine .idle (h.limit room) fun hp => (s.outbox_meet_client _).trans (hfree ?_)
    exact (Bool.or_eq_false_iff.mp hp).1
  | busy h => exact .busy (h.limit room)
  | parted h => exact .parted (h.limit room)

theorem Idle.done_isPrefix {c : Net.Connection} {done : List Transfer} (h : Idle p c done s) :
    done <+: requests p.bytes := by
  rw [h.leads.requests_eq]
  exact List.prefix_append _ _

theorem Over.done_isPrefix {c : Net.Connection} {done : List Transfer} (h : Over p c done s) :
    done <+: requests p.bytes := by
  have := h.done_le []
  rwa [List.append_nil] at this

theorem Busy.requests_eq {c : Net.Connection} {done : List Transfer} {t : Transfer}
    {current : List Bool} (h : Busy p c done t current s) :
    requests p.bytes = done ++ t :: requests c.incoming.flatten := by
  rw [h.leads.requests_eq, List.append_assoc]
  rfl

theorem Standing.levels_isPrefix (h : Standing p finished s) :
    p.levels <+: waveforms p.start (requests p.bytes) := by
  cases h with
  | idle h => exact h.settled.levels_isPrefix h.done_isPrefix
  | busy h =>
    rw [h.requests_eq]
    exact h.clocking.levels_isPrefix _
  | parted h => exact h.settled.levels_isPrefix h.done_isPrefix

/-- What the client can collect and what waits for it are the replies to its stream. -/
theorem Standing.collectable_eq (h : Standing p finished s) :
    s.listener.collectable p.client ++ s.outbox =
      (replies (requests p.bytes) p.tdos).flatMap Record.encode := by
  cases h with
  | idle h =>
    rw [Net.Listener.collectable_of_find? h.linked.holds.find?]
    exact h.settled.written_eq_replies h.done_isPrefix
  | busy h =>
    rw [Net.Listener.collectable_of_find? h.linked.holds.find?, h.requests_eq, h.outbox_eq,
      List.append_nil]
    exact h.clocking.written_eq_replies _
  | parted h =>
    rw [Net.Listener.collectable_of_find? h.letGo.find?, h.outbox_eq, List.append_nil]
    exact h.settled.written_eq_replies h.done_isPrefix

theorem Standing.repliesTo (h : Standing p finished s) :
    RepliesTo (capturing (requests p.bytes) p.tdos)
      (s.listener.collectable p.client ++ s.outbox) := by
  rw [h.collectable_eq]
  exact repliesTo_encode _ _

/-- Nothing waits for a client whose connection always has room. -/
theorem Standing.outbox_eq (h : Standing p finished s) (hfree : p.limited = false) :
    s.outbox = [] := by
  cases h with
  | idle _ hempty => exact hempty hfree
  | busy h => exact h.outbox_eq
  | parted h => exact h.outbox_eq

end Standing

/-- Where a session stands after some events, and what its steps have shown. -/
structure Follows (client : Nat) (start : Lines) (events : List Event) (seen : List Observation)
    (s : Server) : Prop where
  still : ∀ o ∈ seen, o.active = false → o.after = o.before
  stands : Standing (pastOf client start events seen) (isOver seen) s

namespace Follows

variable {client : Nat} {start : Lines} {events : List Event} {seen : List Observation}
  {s : Server}

theorem of_awaits (hs : s.Awaits client) : Follows client s.lines [] [] s := by
  have hpast : (pastOf client s.lines [] []).lines = s.lines := rfl
  constructor
  · intro o ho
    cases ho
  · have hlinked : Linked (pastOf client s.lines [] []) (.fresh client) s :=
      ⟨hs.holds, rfl, rfl, fun _ => rfl⟩
    have hsettled : Settled s.lines [] [] []
        ((Net.Connection.fresh client).outgoing.toList ++ s.outbox) := by
      rw [hs.outbox_eq]
      exact Settled.nil s.lines
    refine .idle ⟨hlinked, ?_, ?_, ?_, hsettled⟩ fun _ => hs.outbox_eq
    · rw [hpast, ← hs.transfer_eq]
      rfl
    · rw [hs.inbox_eq]
      decide
    · rw [hs.inbox_eq]
      exact Leads.refl []

theorem send (h : Follows client start events seen s) (bytes : List UInt8) :
    Follows client start (events ++ [.client (.send client bytes)]) seen
      (s.meet (.client (.send client bytes))) := by
  refine ⟨h.still, ?_⟩
  rw [pastOf_send]
  exact h.stands.send bytes

theorem hangUp (h : Follows client start events seen s) :
    Follows client start (events ++ [.client (.close client)]) seen
      (s.meet (.client (.close client))) := by
  refine ⟨h.still, ?_⟩
  rw [pastOf_hangUp]
  exact h.stands.hangUp

theorem limit (h : Follows client start events seen s) (room : Option Nat) :
    Follows client start (events ++ [.client (.limit client room)]) seen
      (s.meet (.client (.limit client room))) := by
  refine ⟨h.still, ?_⟩
  rw [pastOf_limit]
  exact h.stands.limit room

theorem isOver_concat (seen : List Observation) (o : Observation) :
    isOver (seen ++ [o]) = (isOver seen || o.status != .success) := by
  simp [isOver]

theorem step (h : Follows client start events seen s) (cycle : Nat) (tdo : Bool) :
    Follows client start (events ++ [.step cycle tdo]) (seen ++ [s.observe cycle tdo])
      (s.step cycle tdo) := by
  have hstill : ((s.observe cycle tdo).active = false →
      (s.observe cycle tdo).after = (s.observe cycle tdo).before) →
      ∀ o ∈ seen ++ [s.observe cycle tdo], o.active = false → o.after = o.before := by
    intro hnew o ho
    rcases List.mem_append.mp ho with hold | hlast
    · exact h.still o hold
    · rw [List.mem_singleton.mp hlast]
      exact hnew
  have hstands := h.stands
  cases hseen : isOver seen with
  | true =>
    rw [hseen] at hstands
    cases hstands with
    | parted hover =>
      obtain ⟨hobserve, hnext⟩ := hover.step cycle tdo
      rw [hobserve] at hstill ⊢
      refine ⟨hstill (fun _ => rfl), ?_⟩
      rw [isOver_concat, hseen, pastOf_inactive rfl]
      exact hnext
  | false =>
    rw [hseen] at hstands
    have houtcome := hstands.step cycle tdo
    generalize s.observe cycle tdo = o at hstill houtcome ⊢
    cases houtcome with
    | clocked hactive hstatus hconnected hlt hnext =>
      refine ⟨hstill (fun hinactive => ?_), ?_⟩
      · rw [hactive] at hinactive
        cases hinactive
      · rw [isOver_concat, hseen, hstatus, pastOf_active hactive]
        exact hnext
    | blocked hactive hafter hstatus hconnected hlimited hnext =>
      refine ⟨hstill (fun _ => hafter), ?_⟩
      rw [isOver_concat, hseen, hstatus, pastOf_inactive hactive]
      exact hnext
    | waited hactive hafter hstatus hconnected hlevels hverdict hnext =>
      refine ⟨hstill (fun _ => hafter), ?_⟩
      rw [isOver_concat, hseen, hstatus, pastOf_inactive hactive]
      exact hnext
    | ended hactive hafter hstatus hconnected hlevels hverdict hnext =>
      have hstop : (o.status != Status.success) = true := by
        rw [hstatus]
        simpa using hverdict
      refine ⟨hstill (fun _ => hafter), ?_⟩
      rw [isOver_concat, hstop, Bool.or_true, pastOf_inactive hactive]
      exact hnext

/-- What one event keeps, a whole session keeps. -/
theorem of_run (hs : s.Awaits client) {events : List Event}
    (hevents : ∀ e ∈ events, e.Within client) :
    Follows client s.lines events (s.history events) (s.run events) := by
  induction events using List.reverseRecOn with
  | nil => exact of_awaits hs
  | append_singleton events e ih =>
    have hbefore := ih fun e he => hevents e (List.mem_append_left _ he)
    have he : e.Within client := hevents e (by simp)
    rw [Server.history_concat, Server.run_concat]
    cases he with
    | send bytes =>
      simpa only [Server.shows, List.append_nil] using hbefore.send bytes
    | hangUp => simpa only [Server.shows, List.append_nil] using hbefore.hangUp
    | limit room => simpa only [Server.shows, List.append_nil] using hbefore.limit room
    | step cycle tdo => exact hbefore.step cycle tdo

/-- The next step does what the stream and the steps so far have it do, unless the connection holds
it up. -/
theorem observe_eq (h : Follows client start events seen s) (hfree : limited events = false)
    (cycle : Nat) (tdo : Bool) :
    ((s.observe cycle tdo).active, (s.observe cycle tdo).status, (s.observe cycle tdo).connected) =
      expected start (arrived events) (hungUp events) seen := by
  have hstands := h.stands
  unfold expected
  cases hseen : isOver seen with
  | true =>
    rw [hseen] at hstands
    cases hstands with
    | parted hover => rw [if_pos rfl, (hover.step cycle tdo).1]
  | false =>
    rw [hseen] at hstands
    rw [if_neg Bool.false_ne_true]
    have houtcome := hstands.step cycle tdo
    generalize s.observe cycle tdo = o at houtcome ⊢
    cases houtcome with
    | clocked hactive hstatus hconnected hlt hnext =>
      have hlt : (levelsOf seen).length < (waveforms start (requests (arrived events))).length :=
        hlt
      rw [if_pos hlt, hactive, hstatus, hconnected]
    | blocked hactive hafter hstatus hconnected hlimited hnext =>
      exact nomatch hfree.symm.trans hlimited
    | waited hactive hafter hstatus hconnected hlevels hverdict hnext =>
      have hnot : ¬(levelsOf seen).length < (waveforms start (requests (arrived events))).length :=
        Nat.not_lt.mpr (Nat.le_of_eq (congrArg List.length hlevels.symm))
      have hverdict : (ending (arrived events)).status (hungUp events) = .success := hverdict
      rw [if_neg hnot, hactive, hstatus, hconnected, hverdict]
      rfl
    | ended hactive hafter hstatus hconnected hlevels hverdict hnext =>
      have hnot : ¬(levelsOf seen).length < (waveforms start (requests (arrived events))).length :=
        Nat.not_lt.mpr (Nat.le_of_eq (congrArg List.length hlevels.symm))
      have hstop : ((ending (arrived events)).status (hungUp events) == .success) = false :=
        beq_eq_false_iff_ne.mpr hverdict
      rw [if_neg hnot, hactive, hconnected, hstop, hstatus]
      rfl

end Follows

/-- The law of a session.  The levels after the active steps are those of the stream's requests in
their order, as far as the steps go; every other step leaves the lines alone.  What is written back,
and what still waits to be, is the replies to the scans that are over, each with data-out from its
own steps.  When every write takes all its bytes, nothing waits, and every step is active as long as
a request of the stream is left to clock; then a refused record is a protocol error, a request to
stop or the end of the stream disconnects the client, and the client is let go of. -/
theorem session_follows_stream {s : Server} {client : Nat} (hs : s.Awaits client)
    {events : List Event} (hevents : ∀ e ∈ events, e.Within client) :
    levelsOf (s.history events) <+: waveforms s.lines (requests (arrived events)) ∧
      (∀ o ∈ s.history events, o.active = false → o.after = o.before) ∧
      RepliesTo (capturing (requests (arrived events)) (tdosOf (s.history events)))
        ((s.run events).listener.collectable client ++ (s.run events).outbox) ∧
      (limited events = false →
        (s.run events).outbox = [] ∧
          ∀ cycle tdo, (((s.run events).observe cycle tdo).active,
              ((s.run events).observe cycle tdo).status,
              ((s.run events).observe cycle tdo).connected) =
            expected s.lines (arrived events) (hungUp events) (s.history events)) := by
  have hfollows := Follows.of_run hs hevents
  exact ⟨hfollows.stands.levels_isPrefix, hfollows.still, hfollows.stands.repliesTo,
    fun hfree => ⟨hfollows.stands.outbox_eq hfree, hfollows.observe_eq hfree⟩⟩

/-- A scan of one bit in two pieces, with steps before, between and after. -/
def splitScan : List Event :=
  [.step 0 true, .client (.send 0 ([2, 0, 0, 0, 1] ++ List.replicate 511 0)), .step 1 true,
    .client (.send 0 (List.replicate 512 0 ++ [1, 0, 0, 0, 1, 0, 0, 0])), .step 2 false,
    .step 3 true, .client (.close 0), .step 4 false]

/-- The reply to it when data-out is high in its second step. -/
def splitReply : List UInt8 :=
  [2, 0, 0, 0] ++ (1 :: List.replicate 511 0) ++ (1 :: List.replicate 511 0) ++
    [1, 0, 0, 0] ++ [1, 0, 0, 0]

theorem session_follows_stream_splitScan :
    let s := (Server.listen .loopback true).meet (.client (.connect 0))
    (s.Awaits 0 ∧ ∀ e ∈ splitScan, e.Within 0) ∧ limited splitScan = false ∧
      [⟨false, false, true⟩, ⟨true, false, true⟩] <+:
        waveforms .idle (requests (arrived splitScan)) ∧
      RepliesTo (capturing (requests (arrived splitScan)) [false, true]) splitReply ∧
      (s.run splitScan).listener.collectable 0 = splitReply ∧
      (s.history splitScan).map (fun o => (o.active, o.status, o.connected)) =
        [(false, .success, true), (false, .success, true), (true, .success, true),
          (true, .success, true), (false, .clientDisconnected, false)] ∧
      ((s.run splitScan).observe 5 true).connected = false := by
  intro s
  have hawaits : s.Awaits 0 := Server.awaits_of_connect .loopback 0
  have hwithin : ∀ e ∈ splitScan, e.Within 0 := by
    intro e he
    simp only [splitScan, List.mem_cons, List.not_mem_nil, or_false] at he
    rcases he with rfl | rfl | rfl | rfl | rfl | rfl | rfl | rfl <;> constructor
  have hfree : limited splitScan = false := rfl
  have hlevels : levelsOf (s.history splitScan) =
      [⟨false, false, true⟩, ⟨true, false, true⟩] := by
    decide +kernel
  have htdos : tdosOf (s.history splitScan) = [false, true] := by decide +kernel
  have hreplies : RepliesTo (capturing (requests (arrived splitScan)) [false, true]) splitReply := by
    refine repliesTo_of_filled _ _ ?_
    simp only [Record.filled, Buffer.ofLevels, Buffer.ofBytes_nil]
    decide +kernel
  have hover : expected s.lines (arrived splitScan) (hungUp splitScan) (s.history splitScan) =
      (false, .success, false) := by
    decide +kernel
  obtain ⟨hfront, -, hwritten, hfull⟩ := session_follows_stream hawaits hwithin
  obtain ⟨hnothing, hnext⟩ := hfull hfree
  rw [hlevels] at hfront
  rw [htdos, hnothing, List.append_nil] at hwritten
  have hlast := hnext 5 true
  rw [hover] at hlast
  exact ⟨⟨hawaits, hwithin⟩, hfree, hfront, hreplies, hwritten.unique hreplies, by decide +kernel,
    (Prod.mk.inj (Prod.mk.inj hlast).2).2⟩

end PinBench.Jtag
