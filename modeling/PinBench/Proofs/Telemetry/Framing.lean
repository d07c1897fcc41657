import Mathlib.Data.List.DropRight
import PinBench.Proofs.Telemetry.Calls

/-! How an observer's stream is read.  Whatever pieces the bytes come in and whenever the server is
polled, each poll handles the lines that have been completed since the one before.
`polls_follow_stream` is the law as long as the observer does not end its stream, and
`ending_loses_lines` says what a poll makes of the lines when it finds the end of the stream. -/

namespace PinBench.Telemetry

/-- Some events up to the last poll. -/
def upToPoll (events : List Event) : List Event := events.rdropWhile (· != .poll)

/-- An observer's connection as it had made it when a session was last polled. -/
def atPoll (client : Nat) (earlier during : List Event) : Option Net.Connection :=
  if upToPoll during = [] then none
  else Net.Connection.made client (actionsOf (earlier ++ upToPoll during))

section Last

variable (client : Nat) (earlier during : List Event)

theorem atPoll_poll :
    atPoll client earlier (during ++ [.poll]) =
      Net.Connection.made client (actionsOf (earlier ++ during)) := by
  have hup : upToPoll (during ++ [.poll]) = during ++ [.poll] :=
    List.rdropWhile_concat_neg _ _ _ (by decide)
  rw [atPoll, hup, if_neg (by simp), ← List.append_assoc, actionsOf_poll]

theorem atPoll_of_ne {e : Event} (he : e ≠ .poll) :
    atPoll client earlier (during ++ [e]) = atPoll client earlier during := by
  have hup : upToPoll (during ++ [e]) = upToPoll during :=
    List.rdropWhile_concat_pos _ _ _ (by simpa using he)
  rw [atPoll, hup, atPoll]

end Last

namespace Server

/-- What the polls among some events find while it is the turn of a client. -/
def gathers {α : Type} (find : Server → List α) (s : Server) (client : Nat) : List Event → List α
  | [] => []
  | e :: rest =>
    (if e = .poll ∧ s.listener.turn = some client then find s else []) ++
      gathers find (s.meet e) client rest

/-- The lines of an observer that have been handled. -/
def handled (s : Server) (client : Nat) (events : List Event) : List (List UInt8) :=
  gathers takes s client events

/-- The vectors that the polls in an observer's turn have answered with. -/
def answers (s : Server) (client : Nat) (events : List Event) : List (List Bool) :=
  gathers (fun s => s.poll.2.toList) s client events

variable {s : Server} {client : Nat} {c : Net.Connection}

theorem gathers_concat {α : Type} (find : Server → List α) (s : Server) (client : Nat)
    (events : List Event) (e : Event) :
    gathers find s client (events ++ [e]) = gathers find s client events ++
      if e = .poll ∧ (s.run events).listener.turn = some client then find (s.run events) else [] := by
  induction events generalizing s with
  | nil =>
    rw [List.nil_append, gathers, gathers, gathers, List.append_nil]
    rfl
  | cons first rest ih =>
    rw [List.cons_append, gathers, ih, gathers, List.append_assoc]
    rfl

theorem handled_concat (s : Server) (events : List Event) {e : Event} (he : e ≠ .poll) :
    s.handled client (events ++ [e]) = s.handled client events := by
  rw [handled, gathers_concat, if_neg (fun h => he h.1), List.append_nil, handled]

theorem handled_poll (s : Server) (events : List Event) :
    s.handled client (events ++ [.poll]) = s.handled client events ++
      if (s.run events).listener.turn = some client then (s.run events).takes else [] := by
  rw [handled, gathers_concat]
  simp [handled]

/-- A poll answers with the last message among the lines that it handles. -/
theorem poll_eq_takes (s : Server) :
    s.poll.2 = (s.takes.filterMap levelsOfLine?).getLast? := by
  rw [poll, takes]
  simp only
  split <;> rfl

/-- The last of all the answers is that of the last message that has been handled. -/
theorem getLast?_answers (s : Server) (client : Nat) (events : List Event) :
    (s.answers client events).getLast? =
      ((s.handled client events).filterMap levelsOfLine?).getLast? := by
  induction events generalizing s with
  | nil => rfl
  | cons e rest ih =>
    rw [answers, handled, gathers, gathers, List.filterMap_append, List.getLast?_append,
      List.getLast?_append, ← answers, ← handled, ih]
    congr 1
    split
    · rw [poll_eq_takes]
      cases (s.takes.filterMap levelsOfLine?).getLast? <;> rfl
    · rfl

/-! ### One event -/

/-- It is the turn of an observer with connection `c`.  Of what it has sent, `read` has been read,
and all lines of that have been handled. -/
structure Reading (s : Server) (client : Nat) (made : Net.Connection) (read : List UInt8)
    (c : Net.Connection) : Prop where
  served : s.listener.At client (.served c)
  sameEnd : made.SameEnd c
  stream_eq : made.incoming.flatten = read ++ c.incoming.flatten
  inbox_eq : s.inbox = unfinished read
  bounded : Bounded read

variable {made : Net.Connection} {read : List UInt8}

theorem Reading.heed (h : s.Reading client made read c) (hreachable : s.listener.reachable = true)
    {action : Net.ClientAction} (hold : action ≠ .connect client) :
    (s.meet (.client action)).Reading client (made.heed client action) read
      (c.heed client action) := by
  refine ⟨h.served.heed hreachable hold, h.sameEnd.heed, ?_, h.inbox_eq, h.bounded⟩
  rw [Net.Connection.heed_incoming made hold, Net.Connection.heed_incoming c hold, h.stream_eq,
    List.append_assoc]

theorem Reading.push (h : s.accept.Reading client made read c) (hopen : made.reset = false)
    (change : Change) : ∃ c', (s.push change).Reading client made read c' := by
  obtain ⟨hserved, hsame, hstream, hinbox, hbounded⟩ := h
  have hlistener := send_listener (s.accept.remember change) (.output change)
  have hkept : ((s.accept.remember change).send (.output change)).inbox = s.accept.inbox := by
    unfold send
    split <;> rfl
  have hattached : ((s.accept.remember change).send (.output change)).listener.attached = some c := by
    rw [hlistener]
    exact hserved.client_of_served.1
  obtain ⟨c', outbox, hwrites, hflush⟩ :=
    flush_of_attached hattached (hsame.reset_eq.trans hopen)
  rw [Server.push, hflush]
  generalize (s.accept.remember change).send (.output change) = b at *
  refine ⟨c', ?_, hsame.trans hwrites.sameEnd, ?_, hkept.trans hinbox, hbounded⟩
  · simp only [handed, holding, hlistener]
    exact hserved.serve hwrites.sameEnd
  · rw [hwrites.incoming_eq]
    exact hstream

/-- A poll handles the lines that have been completed, or lets go of the observer. -/
theorem Reading.poll (h : s.accept.Reading client made read c) (hopen : made.reset = false) :
    made.ended = false ∧
        s.takes = (linesOf made.incoming.flatten).drop (linesOf read).length ∧
        (∃ c', s.poll.1.Reading client made made.incoming.flatten c') ∨
      (made.ended = true ∨ ¬Short made.incoming.flatten) ∧ s.takes = [] ∧
        ∃ c', s.poll.1.listener.At client (.parted c') := by
  obtain ⟨hserved, hsame, hstream, hinbox, hbounded⟩ := h
  have hreset : c.reset = false := hsame.reset_eq.trans hopen
  obtain ⟨c₁, outbox, hwrites, ⟨hended, ⟨chunks, hchunks, hfill⟩, htakes, hpoll⟩ |
    ⟨hcause, htakes, hparted⟩⟩ := poll_of_turn hserved hreset
  · left
    rw [hinbox] at htakes hpoll hfill
    refine ⟨hsame.ended_eq ▸ hended, ?_, ?_⟩
    · rw [htakes, hstream, drop_linesOf_append]
    · rw [hpoll]
      have hnew : Bounded (unfinished read ++ c.incoming.flatten) :=
        hbounded.of_unfinished.fill? hchunks hfill
      have hread : c.SameEnd { c₁ with incoming := [] } :=
        hwrites.sameEnd.trans ⟨rfl, rfl, rfl, id⟩
      refine ⟨_, hserved.serve hread, hsame.trans hread, ?_, ?_, ?_⟩
      · simp
      · rw [hstream, unfinished_append]
        rfl
      · rw [hstream]
        exact hbounded.join hnew
  · right
    rw [hinbox] at hcause
    refine ⟨hcause.imp (fun hended => hsame.ended_eq ▸ hended) (fun hlong hshort => hlong ?_), htakes,
      _, hparted⟩
    rw [hstream] at hshort
    exact hshort.unfinished_append

/-! ### Sessions -/

/-- Where the reading of an observer's stream stands, when the observer has made its connection
`made` and had made it `last` at the last poll. -/
inductive Stands (s : Server) (client : Nat) (made : Net.Connection) (last : Option Net.Connection)
    (handled : List (List UInt8)) : Prop
  | reading {c : Net.Connection} :
      s.accept.Reading client made (Net.sent last) c → handled = linesOf (Net.sent last) →
        last.any (·.ended) = false → Stands s client made last handled
  | left {c : Net.Connection} {read : List UInt8} :
      s.listener.At client (.parted c) → read <+: made.incoming.flatten →
        handled = linesOf read → Bounded read → Net.sent last <+: made.incoming.flatten →
          (made.ended = true ∧ last.any (·.ended) = true ∨ ¬Short made.incoming.flatten) →
            Stands s client made last handled

section Events

variable {last : Option Net.Connection} {done : List (List UInt8)}

theorem Stands.heed (h : s.Stands client made last done) (hreachable : s.listener.reachable = true)
    {action : Net.ClientAction} (hold : action ≠ .connect client) :
    (s.meet (.client action)).Stands client (made.heed client action) last done := by
  cases h with
  | @reading c h hdone hlast =>
    have hturn : s.listener.turn ≠ none := by
      rw [turn_of_accept h.served]
      exact Option.some_ne_none _
    have hreachable' : s.accept.listener.reachable = true := by
      rw [accept_listener, Net.Listener.reachable_accept, hreachable]
    refine .reading (c := c.heed client action) ?_ hdone hlast
    rw [accept_meet_client hreachable hturn]
    exact h.heed hreachable' hold
  | left hparted hread hdone hbounded hlast hcause =>
    have hgrows : made.incoming.flatten <+: (made.heed client action).incoming.flatten := by
      rw [Net.Connection.heed_incoming made hold]
      exact List.prefix_append _ _
    refine .left (hparted.heed hreachable hold) (hread.trans hgrows) hdone hbounded
      (hlast.trans hgrows) (hcause.imp ?_ ?_)
    · exact fun ⟨hended, hlast⟩ => ⟨Net.Connection.heed_ended hended, hlast⟩
    · intro hlong hshort
      rw [Net.Connection.heed_incoming made hold] at hshort
      exact hlong hshort.of_append

theorem Stands.push (h : s.Stands client made last done) (hopen : made.reset = false)
    (change : Change) : (s.push change).Stands client made last done := by
  cases h with
  | reading h hdone hlast =>
    obtain ⟨c', h'⟩ := h.push hopen change
    refine .reading (c := c') ?_ hdone hlast
    rwa [accept_of_attached h'.served.client_of_served.1]
  | left hparted hread hdone hbounded hlast hcause =>
    exact .left (hparted.parted_tends (push_tends s change)) hread hdone hbounded hlast hcause

/-- After a poll, everything has been read, or the observer is gone. -/
theorem Stands.poll (h : s.Stands client made last done) (hopen : made.reset = false) :
    s.poll.1.Stands client made (some made)
      (done ++ if s.listener.turn = some client then s.takes else []) := by
  cases h with
  | reading h hdone hlast =>
    obtain ⟨more, hstream⟩ : ∃ more, made.incoming.flatten = Net.sent last ++ more := ⟨_, h.stream_eq⟩
    rw [if_pos (turn_of_accept h.served), hdone]
    rcases h.poll hopen with ⟨hended, htakes, c', h'⟩ | ⟨hcause, htakes, c', hparted⟩
    · refine .reading (c := c') ?_ ?_ hended
      · rwa [accept_of_attached h'.served.client_of_served.1]
      · rw [htakes, hstream, linesOf_append, List.drop_left]
        exact (linesOf_append _ _).symm.trans (congrArg linesOf hstream.symm)
    · rw [htakes, List.append_nil]
      exact .left hparted ⟨more, hstream.symm⟩ rfl h.bounded List.prefix_rfl
        (hcause.imp (fun hended => ⟨hended, hended⟩) id)
  | left hparted hread hdone hbounded _ hcause =>
    rw [if_neg hparted.turn_ne, List.append_nil]
    exact .left (hparted.parted_tends (poll_tends s)) hread hdone hbounded List.prefix_rfl
      (hcause.imp (fun ⟨hended, _⟩ => ⟨hended, hended⟩) id)

end Events

/-- Every event keeps an account of the stream. -/
theorem stands_run {inputs : List InputChannel} {outputs : List OutputChannel}
    {earlier during : List Event}
    (honce : (Net.connects (actionsOf (earlier ++ during))).Nodup)
    (hnever : .abort client ∉ actionsOf (earlier ++ during))
    (hvacant : ((opened inputs outputs).run earlier).connected = false)
    (hturn : ((opened inputs outputs).run earlier).listener.turn = some client) :
    ∃ made, Net.Connection.made client (actionsOf (earlier ++ during)) = some made ∧
      ((opened inputs outputs).run (earlier ++ during)).Stands client made
        (atPoll client earlier during)
        (((opened inputs outputs).run earlier).handled client during) := by
  -- The invariant is `Stands`; only a poll changes which bytes count as read.
  induction during using List.reverseRecOn with
  | nil =>
    rw [List.append_nil] at honce ⊢
    obtain ⟨c, hmade, hserved⟩ := (became_run inputs outputs earlier).next honce hvacant hturn
    have haccept := accept_of_turn hvacant (by rw [hturn]; exact Option.some_ne_none _)
    refine ⟨c, hmade, .reading (c := c) ⟨?_, .refl c, rfl, ?_, bounded_nil⟩ rfl rfl⟩
    · rwa [accept_listener]
    · rw [haccept]
      rfl
  | append_singleton during e ih =>
    rw [← List.append_assoc, actionsOf_append] at honce hnever
    rw [List.mem_append, not_or] at hnever
    obtain ⟨made, hmade, hstands⟩ := ih (Net.nodup_connects_left honce) hnever.1
    have hopen := Net.Connection.made_reset hnever.1 hmade
    have hreachable := (became_run inputs outputs (earlier ++ during)).reachable_eq
    have hold := Net.connect_notMem honce hmade
    rw [← List.append_assoc, run_concat]
    cases e with
    | client action =>
      have hne : action ≠ .connect client := by
        rintro rfl
        exact hold (mem_actionsOf (by simp))
      refine ⟨made.heed client action, ?_, ?_⟩
      · rw [actionsOf_client]
        exact Net.Connection.made_concat hmade hne
      · rw [atPoll_of_ne _ _ _ (by simp), handled_concat _ _ (by simp)]
        exact hstands.heed hreachable hne
    | poll =>
      refine ⟨made, by rw [actionsOf_poll, hmade], ?_⟩
      rw [atPoll_poll, hmade, handled_poll, ← run_append]
      exact hstands.poll hopen
    | push change =>
      refine ⟨made, by rw [actionsOf_push, hmade], ?_⟩
      rw [atPoll_of_ne _ _ _ (by simp), handled_concat _ _ (by simp)]
      exact hstands.push hopen change

section Account

variable {last : Option Net.Connection} {done : List (List UInt8)}

theorem Stands.sent_isPrefix (h : s.Stands client made last done) :
    Net.sent last <+: made.incoming.flatten := by
  cases h with
  | reading h => exact ⟨_, h.stream_eq.symm⟩
  | left _ _ _ _ hlast => exact hlast

theorem Stands.done_isPrefix (h : s.Stands client made last done) :
    done <+: linesOf made.incoming.flatten ∧
      ∀ line ∈ done, line.length < maxPendingInput + readSize := by
  cases h with
  | reading h hdone =>
    rw [hdone, h.stream_eq, linesOf_append]
    exact ⟨List.prefix_append _ _, h.bounded.lines_lt⟩
  | left _ hread hdone hbounded =>
    obtain ⟨more, hstream⟩ := hread
    rw [hdone, ← hstream, linesOf_append]
    exact ⟨List.prefix_append _ _, hbounded.lines_lt⟩

/-- Once a poll has found too much of a line, the observer is gone, and the line is not handled. -/
theorem Stands.of_long (h : s.Stands client made last done) {k : Nat} {piece : List UInt8}
    (hpiece : (pieces (Net.sent last))[k]? = some piece)
    (hlong : maxPendingInput + readSize ≤ piece.length) :
    s.listener.turn ≠ some client ∧ done <+: (linesOf made.incoming.flatten).take k := by
  constructor
  · cases h with
    | reading h =>
      have := h.bounded.length_lt (List.mem_of_getElem? hpiece)
      omega
    | left hparted => exact hparted.turn_ne
  · obtain ⟨more, hstream⟩ := h.sent_isPrefix
    obtain ⟨hfront, hlt⟩ := h.done_isPrefix
    refine List.prefix_take_iff.mpr ⟨hfront, Nat.le_of_not_lt fun hk => ?_⟩
    have hline : (linesOf (Net.sent last ++ more))[k]? = some done[k] := by
      obtain ⟨rest, hrest⟩ := hfront
      rw [hstream, ← hrest, List.getElem?_append_left hk, List.getElem?_eq_getElem hk]
    have := length_le_of_pieces hpiece hline
    have := hlt done[k] (List.getElem_mem hk)
    omega

end Account

end Server

/-- How a stream is read that its observer does not end.  If all its lines are short, the observer
stays; a poll handles the lines that have been completed since the one before, answers with the last
message among them and keeps what is unfinished, so that the last answer of all is that of the lines
so far.  Otherwise, an observer whose line is too long by one read has been let go of, and neither
that line nor one after it has been handled. -/
theorem polls_follow_stream {inputs : List InputChannel} {outputs : List OutputChannel}
    {earlier during : List Event} {client : Nat}
    (honce : (Net.connects (actionsOf (earlier ++ during))).Nodup)
    (hopen : .close client ∉ actionsOf (earlier ++ during))
    (hnever : .abort client ∉ actionsOf (earlier ++ during))
    (hvacant : ((Server.opened inputs outputs).run earlier).connected = false)
    (hturn : ((Server.opened inputs outputs).run earlier).listener.turn = some client) :
    let start := (Server.opened inputs outputs).run earlier
    let s := (Server.opened inputs outputs).run (earlier ++ during)
    let stream := Net.sent (Net.Connection.made client (actionsOf (earlier ++ during)))
    let read := Net.sent (atPoll client earlier during)
    (Short stream →
      s.listener.turn = some client ∧
        start.handled client during = linesOf read ∧
        s.takes = (linesOf stream).drop (linesOf read).length ∧
        s.poll.2 = (s.takes.filterMap levelsOfLine?).getLast? ∧
        s.poll.1.listener.turn = some client ∧ s.poll.1.inbox = unfinished stream ∧
        (start.answers client during).getLast? =
          ((linesOf read).filterMap levelsOfLine?).getLast?) ∧
      ∀ k piece, (pieces read)[k]? = some piece → maxPendingInput + readSize ≤ piece.length →
        s.listener.turn ≠ some client ∧ start.handled client during <+: (linesOf stream).take k := by
  intro start s stream read
  obtain ⟨made, hmade, hstands⟩ := Server.stands_run honce hnever hvacant hturn
  have hstream : stream = made.incoming.flatten := by
    simp only [stream, hmade]
    rfl
  have hstays : made.ended = false := Net.Connection.made_ended hopen hmade
  constructor
  · intro hshort
    rw [hstream] at hshort ⊢
    cases hstands with
    | left _ _ _ _ _ hcause =>
      rcases hcause with ⟨hended, -⟩ | hlong
      · rw [hstays] at hended
        cases hended
      · exact absurd hshort hlong
    | reading h hdone =>
      rcases h.poll (Net.Connection.made_reset hnever hmade) with
        ⟨-, htakes, c', hnext⟩ | ⟨hended | hlong, -⟩
      · refine ⟨Server.turn_of_accept h.served, hdone, htakes, s.poll_eq_takes, hnext.served.turn_eq,
          hnext.inbox_eq, ?_⟩
        rw [Server.getLast?_answers, hdone]
      · rw [hstays] at hended
        cases hended
      · exact absurd hshort hlong
  · intro k piece hpiece hlong
    rw [hstream]
    exact hstands.of_long hpiece hlong

/-- A message of one observer. -/
def oneInput : List UInt8 := (ObserverMessage.inputs [3]).line

/-- The message in two pieces, with a poll between them. -/
def splitInput : List Event :=
  [.client (.send 0 (oneInput.take 9)), .poll, .client (.send 0 (oneInput.drop 9 ++ [123]))]

theorem polls_follow_stream_splitInput :
    let start := (Server.opened [] []).run [.client (.connect 0)]
    let s := (Server.opened [] []).run ([.client (.connect 0)] ++ splitInput)
    ((Net.connects (actionsOf ([.client (.connect 0)] ++ splitInput))).Nodup ∧
      .close 0 ∉ actionsOf ([.client (.connect 0)] ++ splitInput) ∧
      .abort 0 ∉ actionsOf ([.client (.connect 0)] ++ splitInput) ∧
      start.connected = false ∧ start.listener.turn = some 0) ∧
    s.takes = linesOf oneInput ∧ s.poll.2 = some [true] ∧ s.poll.1.inbox = [123] := by
  intro start s
  have honce : (Net.connects (actionsOf ([.client (.connect 0)] ++ splitInput))).Nodup := by decide
  have hopen : .close 0 ∉ actionsOf ([.client (.connect 0)] ++ splitInput) := by decide +kernel
  have hnever : .abort 0 ∉ actionsOf ([.client (.connect 0)] ++ splitInput) := by decide +kernel
  have hshort : Short (Net.sent (Net.Connection.made 0
      (actionsOf ([.client (.connect 0)] ++ splitInput)))) := by
    unfold Short
    decide +kernel
  have hturn : start.listener.turn = some 0 := by decide
  obtain ⟨-, -, htakes, hpoll, -, hinbox, -⟩ :=
    (polls_follow_stream honce hopen hnever rfl hturn).1 hshort
  have hlines : s.takes = linesOf oneInput := htakes.trans (by decide +kernel)
  refine ⟨⟨honce, hopen, hnever, rfl, hturn⟩, hlines, ?_, hinbox.trans (by decide +kernel)⟩
  rw [hpoll, hlines]
  decide +kernel

/-- What becomes of the lines of an observer that ends its stream.  It is the observer's turn until
a poll finds the end of the stream.  Up to then each poll answers with the last message among the
lines that have been completed since the one before; the poll that finds the end answers with
nothing and lets go of the observer.  So that poll gives the last message only if there is none. -/
theorem ending_loses_lines {inputs : List InputChannel} {outputs : List OutputChannel}
    {earlier during : List Event} {client : Nat}
    (honce : (Net.connects (actionsOf (earlier ++ during))).Nodup)
    (hnever : .abort client ∉ actionsOf (earlier ++ during))
    (hvacant : ((Server.opened inputs outputs).run earlier).connected = false)
    (hturn : ((Server.opened inputs outputs).run earlier).listener.turn = some client)
    (hshort : Short (Net.sent (Net.Connection.made client (actionsOf (earlier ++ during))))) :
    let s := (Server.opened inputs outputs).run (earlier ++ during)
    let made := Net.Connection.made client (actionsOf (earlier ++ during))
    let last := atPoll client earlier during
    let new := (linesOf (Net.sent made)).drop (linesOf (Net.sent last)).length
    (s.listener.turn = some client ↔ last.any (·.ended) = false) ∧
      (s.listener.turn = some client →
        s.poll.2 = (if made.any (·.ended) then none else (new.filterMap levelsOfLine?).getLast?) ∧
        (s.poll.1.listener.turn = some client ↔ made.any (·.ended) = false) ∧
        (s.poll.2 = (new.filterMap levelsOfLine?).getLast? ↔
          made.any (·.ended) = true → new.filterMap levelsOfLine? = [])) := by
  intro s made last new
  obtain ⟨c, hmade, hstands⟩ := Server.stands_run honce hnever hvacant hturn
  have hopen := Net.Connection.made_reset hnever hmade
  rw [hmade] at hshort
  have hmade : made = some c := hmade
  have hany : made.any (·.ended) = c.ended := by
    rw [hmade]
    rfl
  rw [hany]
  cases hstands with
  | left hparted _ _ _ _ hcause =>
    have hended := (hcause.resolve_right (not_not_intro hshort)).2
    constructor
    · rw [show last.any (·.ended) = true from hended]
      exact iff_of_false hparted.turn_ne (by decide)
    · intro hturn
      exact absurd hturn hparted.turn_ne
  | reading h hdone hlast =>
    refine ⟨iff_of_true (Server.turn_of_accept h.served) hlast, fun _ => ?_⟩
    rw [s.poll_eq_takes]
    rcases h.poll hopen with ⟨hended, htakes, c', hnext⟩ | ⟨hcause, htakes, c', hparted⟩
    · have htakes : s.takes = new := by
        rw [htakes]
        simp only [new, hmade]
        rfl
      rw [htakes, hended]
      refine ⟨rfl, iff_of_true hnext.served.turn_eq rfl, iff_of_true rfl ?_⟩
      intro hfalse
      cases hfalse
    · have hended := hcause.resolve_right (not_not_intro hshort)
      rw [htakes, hended, if_pos rfl]
      refine ⟨rfl, iff_of_false hparted.turn_ne (by decide), ?_⟩
      rw [List.filterMap_nil, List.getLast?_nil, eq_comm, List.getLast?_eq_none_iff]
      simp

/-- The observer sends a message and ends its stream before the next poll. -/
def lastWord : List Event :=
  [.poll, .client (.send 0 oneInput), .client (.close 0)]

theorem ending_loses_lines_lastWord :
    let start := (Server.opened [] []).run [.client (.connect 0)]
    let s := (Server.opened [] []).run ([.client (.connect 0)] ++ lastWord)
    let made := Net.Connection.made 0 (actionsOf ([.client (.connect 0)] ++ lastWord))
    ((Net.connects (actionsOf ([.client (.connect 0)] ++ lastWord))).Nodup ∧
      .abort 0 ∉ actionsOf ([.client (.connect 0)] ++ lastWord) ∧
      start.connected = false ∧ start.listener.turn = some 0 ∧ Short (Net.sent made)) ∧
    s.listener.turn = some 0 ∧
      ((linesOf (Net.sent made)).filterMap levelsOfLine?).getLast? = some [true] ∧
      s.poll.2 = none ∧ s.poll.1.listener.turn ≠ some 0 := by
  intro start s made
  have honce : (Net.connects (actionsOf ([.client (.connect 0)] ++ lastWord))).Nodup := by decide
  have hnever : .abort 0 ∉ actionsOf ([.client (.connect 0)] ++ lastWord) := by decide +kernel
  have hshort : Short (Net.sent made) := by
    unfold Short
    decide +kernel
  have hturn : start.listener.turn = some 0 := by decide
  obtain ⟨hstays, hnext⟩ := ending_loses_lines honce hnever rfl hturn hshort
  have hnow : s.listener.turn = some 0 := hstays.mpr (by decide +kernel)
  obtain ⟨hpoll, hgone, -⟩ := hnext hnow
  have hended : made.any (·.ended) = true := by decide +kernel
  refine ⟨⟨honce, hnever, rfl, hturn, hshort⟩, hnow, by decide +kernel, ?_, ?_⟩
  · rw [hpoll]
    exact if_pos hended
  · rw [ne_eq, hgone, Bool.not_eq_false]
    exact hended

end PinBench.Telemetry
