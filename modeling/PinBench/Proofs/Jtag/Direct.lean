import PinBench.Proofs.Jtag.Stream
import PinBench.Proofs.Model.TapPart

/-! A debug server that clocks a test access port directly: in each phase of the test clock it takes
the port's output, steps, and the port sees its lines.  Nothing stands between the two, and no time
passes but in phases.  In a session of one client each phase clocks the next level of the client's
requests as long as one is left, so the port sees each of them once and in their order, and the bits
of the replies are what it put out after the low phases (`run_session`).  A connection that blocks
holds phases up and keeps back the end of the replies. -/

namespace PinBench.Model.Tap

open Jtag (Lines)

/-- The port after it saw some levels, one after another. -/
def through (t : Tap) (levels : List Lines) : Tap := levels.foldl see t

/-- The output of the port before it saw each of some levels. -/
def outputs (t : Tap) : List Lines → List Bool
  | [] => []
  | lines :: rest => t.tdo :: (t.see lines).outputs rest

theorem through_concat (t : Tap) (levels : List Lines) (lines : Lines) :
    t.through (levels ++ [lines]) = (t.through levels).see lines := by
  simp only [through, List.foldl_append, List.foldl_cons, List.foldl_nil]

theorem outputs_append (t : Tap) (levels more : List Lines) :
    t.outputs (levels ++ more) = t.outputs levels ++ (t.through levels).outputs more := by
  induction levels generalizing t with
  | nil => rfl
  | cons first rest ih =>
    rw [List.cons_append, outputs, ih, outputs]
    rfl

theorem length_outputs (t : Tap) (levels : List Lines) :
    (t.outputs levels).length = levels.length := by
  induction levels generalizing t with
  | nil => rfl
  | cons first rest ih => rw [outputs, List.length_cons, ih, List.length_cons]

theorem getElem?_outputs (t : Tap) {levels : List Lines} {i : Nat} (hi : i < levels.length) :
    (t.outputs levels)[i]? = some (t.through (levels.take i)).tdo := by
  induction levels generalizing t i with
  | nil => cases hi
  | cons first rest ih =>
    cases i with
    | zero => rfl
    | succ i => exact ih (t.see first) (Nat.lt_of_succ_lt_succ hi)

end PinBench.Model.Tap

namespace PinBench.Jtag

open Model (Tap)

/-! ### Replies from the port -/

namespace Transfer

/-- What the port puts out after the low phase of each bit of a request, which finds it at `port`.
-/
def lowOutputs (t : Transfer) (port : Tap) (start : Lines) : List Bool :=
  (List.range t.total).map fun i => (port.through ((t.trace start).take (2 * i + 1))).tdo

/-- What is taken in a high phase is what the port put out after the low phase before it. -/
theorem highPhases_outputs (t : Transfer) (port : Tap) (start : Lines) :
    highPhases (port.outputs (t.trace start)) = t.lowOutputs port start := by
  have hlen : (t.trace start).length = max (2 * t.total) 1 := t.length_trace start
  refine List.ext_getElem? fun i => ?_
  rw [getElem?_highPhases, lowOutputs]
  by_cases hi : i < t.total
  · rw [Tap.getElem?_outputs port (by omega)]
    simp [hi]
  · rw [List.getElem?_eq_none (by rw [Tap.length_outputs]; omega),
      List.getElem?_eq_none (by rw [List.length_map, List.length_range]; omega)]

end Transfer

/-- Those of some requests that are over after `k` phases and capture the port's output, each with
what the port put out after its own low phases.  The first request finds the lines at `start` and
the port at `port`. -/
def portCapturing (port : Tap) (start : Lines) : List Transfer → Nat → List (Transfer × List Bool)
  | [], _ => []
  | t :: rest, k =>
    if k < t.steps then []
    else
      (if t.captures then [(t, t.lowOutputs port start)] else []) ++
        portCapturing (port.through (t.trace start)) ((t.trace start).getLastD start) rest
          (k - t.steps)

theorem capturing_outputs (port : Tap) (start : Lines) (requests : List Transfer) (k : Nat) :
    capturing requests (port.outputs ((waveforms start requests).take k)) =
      portCapturing port start requests k := by
  induction requests generalizing port start k with
  | nil => rfl
  | cons t rest ih =>
    have htrace := t.length_trace start
    by_cases hk : k < t.steps
    · have hshort : (port.outputs ((waveforms start (t :: rest)).take k)).length < t.steps := by
        rw [Tap.length_outputs, List.length_take]
        omega
      rw [capturing, if_pos hshort, portCapturing, if_pos hk]
    · have htake : (waveforms start (t :: rest)).take k = t.trace start ++
          (waveforms ((t.trace start).getLastD start) rest).take (k - t.steps) := by
        rw [waveforms, List.take_append, htrace, List.take_of_length_le (by omega)]
      have hlen : (port.outputs (t.trace start)).length = t.steps :=
        (Tap.length_outputs _ _).trans htrace
      have hlong : ¬(port.outputs (t.trace start) ++ (port.through (t.trace start)).outputs
          ((waveforms ((t.trace start).getLastD start) rest).take (k - t.steps))).length <
            t.steps := by
        rw [List.length_append, hlen]
        omega
      rw [htake, Tap.outputs_append, capturing, portCapturing, if_neg hk, if_neg hlong,
        List.take_left' hlen, List.drop_left' hlen, ih, Transfer.highPhases_outputs]

/-! ### Clocking the port -/

/-- What happens to a debug server: a client acts, or a phase of the test clock comes. -/
inductive Moment where
  | client (action : Net.ClientAction)
  | phase (cycle : Nat)
  deriving DecidableEq, Repr

namespace Moment

def bytes : Moment → List UInt8
  | .client (.send _ bytes) => bytes
  | _ => []

/-- Whether the client is left with only so much room. -/
def limits : Moment → Bool
  | .client (.limit _ room) => room.isSome
  | _ => false

end Moment

/-- The moments of one client's session, whose stream has `ended` or not: bytes arrive until the
client ends its stream, the client makes room for replies, and phases come. -/
inductive Session (client : Nat) : Bool → List Moment → Prop where
  | nil {ended : Bool} : Session client ended []
  | send {rest : List Moment} (bytes : List UInt8) (h : Session client false rest) :
      Session client false (.client (.send client bytes) :: rest)
  | hangUp {ended : Bool} {rest : List Moment} (h : Session client true rest) :
      Session client ended (.client (.close client) :: rest)
  | limit {ended : Bool} {rest : List Moment} (room : Option Nat) (h : Session client ended rest) :
      Session client ended (.client (.limit client room) :: rest)
  | phase {ended : Bool} {rest : List Moment} (cycle : Nat) (h : Session client ended rest) :
      Session client ended (.phase cycle :: rest)

theorem Session.phases (client : Nat) (ended : Bool) (cycles : List Nat) :
    Session client ended (cycles.map .phase) := by
  induction cycles with
  | nil => exact .nil
  | cons cycle rest ih => exact .phase cycle ih

/-- The number of levels clocked after some moments of a session in which `bytes` have arrived and
`k` levels have been clocked, if no write blocks: each phase clocks one as long as one is left. -/
def clockedAfter (bytes : List UInt8) (k : Nat) : List Moment → Nat
  | [] => k
  | .phase _ :: rest =>
    clockedAfter bytes (min (k + 1) (waveforms .idle (requests bytes)).length) rest
  | .client action :: rest => clockedAfter (bytes ++ (Moment.client action).bytes) k rest

/-- A debug server and the port that it clocks. -/
structure Direct where
  server : Server
  tap : Tap
  deriving DecidableEq, Repr

namespace Direct

/-- The port has been powered up and has seen the levels from before the first request. -/
def start (server : Server) (idcode : UInt32) : Direct :=
  ⟨server, (Tap.powerUp idcode).see .idle⟩

def meet (d : Direct) : Moment → Direct
  | .client action => { d with server := d.server.meet (.client action) }
  | .phase cycle =>
    let server := d.server.step cycle d.tap.tdo
    ⟨server, d.tap.see server.lines⟩

def run (d : Direct) (moments : List Moment) : Direct := moments.foldl meet d

theorem run_append (d : Direct) (moments more : List Moment) :
    d.run (moments ++ more) = (d.run moments).run more := List.foldl_append

theorem tap_run_clients (d : Direct) (actions : List Net.ClientAction) :
    (d.run (actions.map .client)).tap = d.tap := by
  induction actions generalizing d with
  | nil => rfl
  | cons action rest ih => exact ih (d.meet (.client action))

/-! ### One client's session -/

/-- The port, at `t` before the session, has seen the first `k` levels of the requests in `bytes`,
and the client is answered with what it put out. -/
structure Clocked (t : Tap) (client : Nat) (bytes : List UInt8) (k : Nat) (d : Direct) : Prop where
  le_length : k ≤ (waveforms .idle (requests bytes)).length
  lines_eq : d.server.lines = ((waveforms .idle (requests bytes)).take k).getLastD .idle
  tap_eq : d.tap = t.through ((waveforms .idle (requests bytes)).take k)
  repliesTo : RepliesTo (portCapturing t .idle (requests bytes) k)
    (d.server.listener.collectable client ++ d.server.outbox)

/-- A server that no client has connected to, and the port as it was. -/
structure Vacant (t : Tap) (d : Direct) : Prop where
  server_eq : ∃ interface cycle,
    d.server = { Server.listen interface true with lastCycle := cycle }
  tap_eq : d.tap = t

/-- A session with the port: what the steps have shown is what the port saw and put out. -/
structure Hears (t : Tap) (client : Nat) (events : List Event) (seen : List Observation)
    (d : Direct) : Prop where
  follows : Follows client .idle events seen d.server
  tap_eq : d.tap = t.through (levelsOf seen)
  tdos_eq : tdosOf seen = t.outputs (levelsOf seen)
  last_eq : d.tap.lastTck = d.server.lines.tck

variable {t : Tap} {client : Nat} {events : List Event} {seen : List Observation} {d : Direct}

theorem levelsOf_concat (seen : List Observation) (o : Observation) :
    levelsOf (seen ++ [o]) = levelsOf seen ++ if o.active then [o.after] else [] := by
  cases hactive : o.active <;> simp [levelsOf, hactive]

theorem tdosOf_concat (seen : List Observation) (o : Observation) :
    tdosOf (seen ++ [o]) = tdosOf seen ++ if o.active then [o.tdo] else [] := by
  cases hactive : o.active <;> simp [tdosOf, hactive]

theorem lines_meet_client (s : Server) (action : Net.ClientAction) :
    (s.meet (.client action)).lines = s.lines := by
  simp only [Server.meet]
  split <;> rfl

theorem Vacant.phase (h : Vacant t d) (ht : t.lastTck = Lines.idle.tck) (cycle : Nat) :
    Vacant t (d.meet (.phase cycle)) := by
  obtain ⟨⟨interface, earlier, hserver⟩, rfl⟩ := h
  have hstep : d.server.step cycle d.tap.tdo =
      { Server.listen interface true with lastCycle := cycle } := by
    rw [hserver]
    rfl
  simp only [meet, hstep]
  exact ⟨⟨interface, cycle, rfl⟩, Tap.see_of_still ht⟩

theorem Vacant.connect (h : Vacant t d) (ht : t.lastTck = Lines.idle.tck) (client : Nat) :
    Hears t client [] [] (d.meet (.client (.connect client))) := by
  obtain ⟨⟨interface, cycle, hserver⟩, htap⟩ := h
  have hawaits := Server.awaits_of_connect interface client
  have hserver' : (d.meet (.client (.connect client))).server =
      { (Server.listen interface true).meet (.client (.connect client)) with
        lastCycle := cycle } := by
    rw [meet, hserver]
    rfl
  have hlines : (d.meet (.client (.connect client))).server.lines = .idle := by
    rw [hserver']
    rfl
  refine ⟨?_, htap, rfl, ?_⟩
  · rw [← hlines]
    refine .of_awaits ?_
    rw [hserver']
    exact ⟨hawaits.inbox_eq, hawaits.outbox_eq, hawaits.transfer_eq, hawaits.holds⟩
  · rw [hlines]
    exact htap ▸ ht

theorem Hears.send (h : Hears t client events seen d) (bytes : List UInt8) :
    Hears t client (events ++ [.client (.send client bytes)]) seen
      (d.meet (.client (.send client bytes))) where
  follows := h.follows.send bytes
  tap_eq := h.tap_eq
  tdos_eq := h.tdos_eq
  last_eq := h.last_eq.trans (congrArg Lines.tck (lines_meet_client _ _)).symm

theorem Hears.hangUp (h : Hears t client events seen d) :
    Hears t client (events ++ [.client (.close client)]) seen
      (d.meet (.client (.close client))) where
  follows := h.follows.hangUp
  tap_eq := h.tap_eq
  tdos_eq := h.tdos_eq
  last_eq := h.last_eq.trans (congrArg Lines.tck (lines_meet_client _ _)).symm

theorem Hears.limit (h : Hears t client events seen d) (room : Option Nat) :
    Hears t client (events ++ [.client (.limit client room)]) seen
      (d.meet (.client (.limit client room))) where
  follows := h.follows.limit room
  tap_eq := h.tap_eq
  tdos_eq := h.tdos_eq
  last_eq := h.last_eq.trans (congrArg Lines.tck (lines_meet_client _ _)).symm

theorem Hears.phase (h : Hears t client events seen d) (cycle : Nat) :
    Hears t client (events ++ [.step cycle d.tap.tdo])
      (seen ++ [d.server.observe cycle d.tap.tdo]) (d.meet (.phase cycle)) := by
  have hfollows := h.follows.step cycle d.tap.tdo
  have hstill := hfollows.still (d.server.observe cycle d.tap.tdo) (by simp)
  obtain ⟨o, ho⟩ : ∃ o, o = d.server.observe cycle d.tap.tdo := ⟨_, rfl⟩
  have htap : (d.meet (.phase cycle)).tap = d.tap.see o.after := by
    rw [ho]
    rfl
  have hbefore : o.before = d.server.lines := by rw [ho, Server.observe]
  have htdo : o.tdo = d.tap.tdo := by rw [ho, Server.observe]
  rw [← ho] at hfollows hstill ⊢
  refine ⟨hfollows, ?_, ?_, Tap.lastTck_see _ _⟩
  · rw [htap, levelsOf_concat]
    cases hactive : o.active with
    | true => rw [if_pos rfl, Tap.through_concat, ← h.tap_eq]
    | false =>
      -- The lines have not moved, so the port does not move either.
      have hlast : d.tap.lastTck = o.after.tck := by
        rw [hstill hactive, hbefore]
        exact h.last_eq
      rw [if_neg Bool.false_ne_true, List.append_nil, Tap.see_of_still hlast]
      exact h.tap_eq
  · rw [levelsOf_concat, tdosOf_concat, h.tdos_eq]
    cases o.active with
    | true =>
      rw [if_pos rfl, if_pos rfl, Tap.outputs_append, ← h.tap_eq, htdo]
      rfl
    | false => rw [if_neg Bool.false_ne_true, if_neg Bool.false_ne_true, List.append_nil,
        List.append_nil]

theorem Hears.clocked (h : Hears t client events seen d) :
    Clocked t client (arrived events) (levelsOf seen).length d := by
  have hstands := h.follows.stands
  have hlevels : levelsOf seen <+: waveforms .idle (requests (arrived events)) :=
    hstands.levels_isPrefix
  have htake := List.prefix_iff_eq_take.mp hlevels
  have htdos := h.tdos_eq
  refine ⟨hlevels.length_le, ?_, ?_, ?_⟩
  · rw [← htake]
    exact hstands.lines_eq
  · rw [← htake]
    exact h.tap_eq
  · rw [← capturing_outputs, ← htake, ← htdos]
    exact hstands.repliesTo

/-- A session that is over has clocked all that there was, and nothing that may still arrive adds to
it. -/
def Exhausted (events : List Event) (seen : List Observation) : Prop :=
  isOver seen = true → ∀ more, (hungUp events = true → more = []) →
    levelsOf seen = waveforms .idle (requests (arrived events ++ more))

theorem Exhausted.send (h : Exhausted events seen) (hopen : hungUp events = false)
    (bytes : List UInt8) :
    Exhausted (events ++ [.client (.send client bytes)]) seen := by
  intro hover more _
  have hlevels := h hover (bytes ++ more) fun hended => nomatch hopen.symm.trans hended
  simpa [arrived, Event.bytes, List.append_assoc] using hlevels

theorem Exhausted.hangUp (h : Exhausted events seen) :
    Exhausted (events ++ [.client (.close client)]) seen := by
  intro hover more hmore
  have hnil : more = [] := hmore (by simp [hungUp, Event.endsStream])
  have hlevels := h hover [] fun _ => rfl
  rw [hnil]
  simpa [arrived, Event.bytes] using hlevels

theorem Exhausted.limit (h : Exhausted events seen) (room : Option Nat) :
    Exhausted (events ++ [.client (.limit client room)]) seen := by
  intro hover more hmore
  have hlevels := h hover more fun hended =>
    hmore (by simpa [hungUp, Event.endsStream] using hended)
  simpa [arrived, Event.bytes] using hlevels

/-- A phase clocks one level as long as one is left and no write blocks. -/
theorem Exhausted.phase (h : Exhausted events seen) (hears : Hears t client events seen d)
    (hfree : limited events = false) (cycle : Nat) :
    Exhausted (events ++ [.step cycle d.tap.tdo]) (seen ++ [d.server.observe cycle d.tap.tdo]) ∧
      (levelsOf (seen ++ [d.server.observe cycle d.tap.tdo])).length =
        min ((levelsOf seen).length + 1) (waveforms .idle (requests (arrived events))).length := by
  have hexpected := hears.follows.observe_eq hfree cycle d.tap.tdo
  have hfront : levelsOf seen <+: waveforms .idle (requests (arrived events)) :=
    hears.follows.stands.levels_isPrefix
  have hle := hfront.length_le
  have harrived : arrived (events ++ [.step cycle d.tap.tdo]) = arrived events := by
    simp [arrived, Event.bytes]
  have hhungUp : hungUp (events ++ [.step cycle d.tap.tdo]) = hungUp events := by
    simp [hungUp, Event.endsStream]
  generalize d.server.observe cycle d.tap.tdo = o at hexpected ⊢
  unfold Exhausted
  rw [harrived, hhungUp, levelsOf_concat, Follows.isOver_concat]
  unfold expected at hexpected
  cases hover : isOver seen with
  | true =>
    -- The client has been let go of, and no level was left.
    have hall : levelsOf seen = waveforms .idle (requests (arrived events)) := by
      simpa using h hover [] fun _ => rfl
    rw [hover, if_pos rfl, Prod.mk.injEq] at hexpected
    rw [hexpected.1, if_neg Bool.false_ne_true, List.append_nil]
    refine ⟨fun _ => h hover, ?_⟩
    rw [← hall]
    omega
  | false =>
    rw [hover, if_neg Bool.false_ne_true] at hexpected
    by_cases hlt : (levelsOf seen).length < (waveforms .idle (requests (arrived events))).length
    · rw [if_pos hlt, Prod.mk.injEq, Prod.mk.injEq] at hexpected
      obtain ⟨hactive, hstatus, -⟩ := hexpected
      rw [hactive, hstatus, if_pos rfl]
      refine ⟨fun hstop => by simp at hstop, ?_⟩
      rw [List.length_append, List.length_singleton]
      omega
    · have hall := hfront.eq_of_length_le (Nat.le_of_not_lt hlt)
      rw [if_neg hlt, Prod.mk.injEq, Prod.mk.injEq] at hexpected
      obtain ⟨hactive, hstatus, -⟩ := hexpected
      rw [hactive, hstatus, if_neg Bool.false_ne_true, List.append_nil]
      refine ⟨fun hstop more hmore => ?_, by omega⟩
      cases hended : hungUp events with
      | true => rw [hmore hended, List.append_nil, hall]
      | false =>
        have hending : ending (arrived events) ≠ .more := by
          intro hmore
          rw [hmore, hended] at hstop
          cases hstop
        rw [requests_append_of_ending hending, hall]

/-- What one moment keeps, a whole session keeps. -/
theorem Hears.run (h : Hears t client events seen d)
    (hexhausted : limited events = false → Exhausted events seen)
    {ended : Bool} (hended : hungUp events = ended) {moments : List Moment}
    (hsession : Session client ended moments) :
    ∃ events' seen', Hears t client events' seen' (d.run moments) ∧
      arrived events' = arrived events ++ moments.flatMap Moment.bytes ∧
      limited events' = (limited events || moments.any Moment.limits) ∧
      (limited events' = false →
        (levelsOf seen').length = clockedAfter (arrived events) (levelsOf seen).length moments) := by
  induction hsession generalizing d events seen with
  | nil => exact ⟨events, seen, h, by simp, by simp, fun _ => rfl⟩
  | @send rest bytes _ ih =>
    have hlimited : limited (events ++ [.client (.send client bytes)]) = limited events := by
      simp [limited, Event.limits]
    have hopen : hungUp (events ++ [.client (.send client bytes)]) = false := by
      simpa [hungUp, Event.endsStream] using hended
    obtain ⟨events', seen', hears, harrived, hfree, hcount⟩ :=
      ih (h.send bytes) (fun hfree => (hexhausted (hlimited ▸ hfree)).send hended bytes) hopen
    refine ⟨events', seen', hears, ?_, ?_, fun hfree => ?_⟩
    · simpa [arrived, Event.bytes, Moment.bytes, List.append_assoc] using harrived
    · simpa [hlimited, Moment.limits] using hfree
    · simpa [clockedAfter, arrived, Event.bytes, Moment.bytes] using hcount hfree
  | @hangUp ended rest _ ih =>
    have hlimited : limited (events ++ [.client (.close client)]) = limited events := by
      simp [limited, Event.limits]
    have hclosed : hungUp (events ++ [.client (.close client)]) = true := by
      simp [hungUp, Event.endsStream]
    obtain ⟨events', seen', hears, harrived, hfree, hcount⟩ :=
      ih h.hangUp (fun hfree => (hexhausted (hlimited ▸ hfree)).hangUp) hclosed
    refine ⟨events', seen', hears, ?_, ?_, fun hfree => ?_⟩
    · simpa [arrived, Event.bytes, Moment.bytes] using harrived
    · simpa [hlimited, Moment.limits] using hfree
    · simpa [clockedAfter, arrived, Event.bytes, Moment.bytes] using hcount hfree
  | @limit ended rest room _ ih =>
    have hlimited : limited (events ++ [.client (.limit client room)]) =
        (limited events || room.isSome) := by
      simp [limited, Event.limits]
    have hsame : hungUp (events ++ [.client (.limit client room)]) = ended := by
      simpa [hungUp, Event.endsStream] using hended
    have hbefore : limited (events ++ [.client (.limit client room)]) = false →
        limited events = false := fun hfree =>
      (Bool.or_eq_false_iff.mp (hlimited.symm.trans hfree)).1
    obtain ⟨events', seen', hears, harrived, hfree, hcount⟩ :=
      ih (h.limit room) (fun hfree => (hexhausted (hbefore hfree)).limit room) hsame
    refine ⟨events', seen', hears, ?_, ?_, fun hfree => ?_⟩
    · simpa [arrived, Event.bytes, Moment.bytes] using harrived
    · simpa [hlimited, Moment.limits, Bool.or_assoc] using hfree
    · simpa [clockedAfter, arrived, Event.bytes, Moment.bytes] using hcount hfree
  | @phase ended rest cycle _ ih =>
    have hlimited : limited (events ++ [.step cycle d.tap.tdo]) = limited events := by
      simp [limited, Event.limits]
    have hsame : hungUp (events ++ [.step cycle d.tap.tdo]) = ended := by
      simpa [hungUp, Event.endsStream] using hended
    obtain ⟨events', seen', hears, harrived, hfree, hcount⟩ := ih (h.phase cycle)
      (fun hfree => ((hexhausted (hlimited ▸ hfree)).phase h (hlimited ▸ hfree) cycle).1) hsame
    refine ⟨events', seen', hears, ?_, ?_, fun hnone => ?_⟩
    · simpa [arrived, Event.bytes, Moment.bytes] using harrived
    · simpa [hlimited, Moment.limits] using hfree
    · have hbefore : limited events = false := by
        rw [hnone, hlimited] at hfree
        exact (Bool.or_eq_false_iff.mp hfree.symm).1
      have hcount := hcount hnone
      rw [((hexhausted hbefore).phase h hbefore cycle).2] at hcount
      simpa [clockedAfter, arrived, Event.bytes] using hcount

theorem Vacant.run (h : Vacant t d) (ht : t.lastTck = Lines.idle.tck) {moments : List Moment}
    (hmoments : ∀ m ∈ moments, ∃ cycle, m = .phase cycle) : Vacant t (d.run moments) := by
  induction moments generalizing d with
  | nil => exact h
  | cons m rest ih =>
    obtain ⟨cycle, rfl⟩ := hmoments m (List.mem_cons_self ..)
    exact ih (h.phase ht cycle) fun m hm => hmoments m (List.mem_cons_of_mem _ hm)

/-- A session of one client, who connects at some time to a server that nobody else connects to. -/
theorem run_session (interface : Net.Interface) (idcode : UInt32) (client : Nat)
    {before after : List Moment} (hbefore : ∀ m ∈ before, ∃ cycle, m = .phase cycle)
    (hafter : Session client false after) :
    let d := (start (.listen interface true) idcode).run
      (before ++ .client (.connect client) :: after)
    ∃ k, Clocked ((Tap.powerUp idcode).see .idle) client (after.flatMap Moment.bytes) k d ∧
      (after.any Moment.limits = false →
        k = clockedAfter [] 0 after ∧ d.server.outbox = []) := by
  intro d
  have ht : ((Tap.powerUp idcode).see .idle).lastTck = Lines.idle.tck := Tap.lastTck_see _ _
  have hstart : Vacant ((Tap.powerUp idcode).see .idle) (start (.listen interface true) idcode) :=
    ⟨⟨interface, 0, rfl⟩, rfl⟩
  have hconnected := (hstart.run ht hbefore).connect ht client
  have hfirst : limited [] = false → Exhausted [] [] := fun _ hover => nomatch hover
  obtain ⟨events, seen, hears, harrived, hlimited, hcount⟩ := hconnected.run hfirst rfl hafter
  have harrived : arrived events = after.flatMap Moment.bytes := harrived
  have hclocked := hears.clocked
  rw [harrived] at hclocked
  have hd : d = (((start (.listen interface true) idcode).run before).meet
      (.client (.connect client))).run after := run_append _ _ _
  rw [hd]
  refine ⟨_, hclocked, fun hnone => ?_⟩
  have hfree : limited events = false := hlimited.trans hnone
  exact ⟨hcount hfree, hears.follows.stands.outbox_eq hfree⟩

end Direct

end PinBench.Jtag
