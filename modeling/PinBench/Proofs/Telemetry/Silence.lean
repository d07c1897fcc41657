import PinBench.Proofs.Telemetry.Calls
import PinBench.Telemetry.Relay

/-! Observers who set no inputs.  Whatever is done to a telemetry server, it has read the stream of
the connection that it serves up to some point, and what it still holds follows complete lines of
that stream (`Tracks`).  So if no stream has a complete line that sets inputs, no poll gives any,
and the relay in front of the server leaves its model alone. -/

namespace PinBench

namespace Net

/-- `stream` is what a client has sent on one of its connections, if all that clients have done is
`actions`. -/
def StreamOf (actions : List ClientAction) (client : Nat) (stream : List UInt8) : Prop :=
  ∃ before after, actions = before ++ .connect client :: after ∧
    stream = after.flatMap (·.bytesOf client)

theorem StreamOf.act {actions : List ClientAction} {client : Nat} {stream : List UInt8}
    (h : StreamOf actions client stream) (action : ClientAction) :
    StreamOf (actions ++ [action]) client (stream ++ action.bytesOf client) := by
  obtain ⟨before, after, rfl, rfl⟩ := h
  exact ⟨before, after ++ [action], by simp, by simp⟩

theorem streamOf_connect (actions : List ClientAction) (client : Nat) :
    StreamOf (actions ++ [.connect client]) client [] :=
  ⟨actions, [], rfl, rfl⟩

/-- Clients act on their own connections, whether they wait, are served or have been let go of. -/
theorem Listener.meet_eq_heed {l : Listener} {action : ClientAction}
    {f : Connection → Connection} (heffect : action.effect = some f) :
    (l.meet action).queue = l.queue.map (fun c => c.heed c.client action) ∧
      (l.meet action).attached = l.attached.map (fun c => c.heed c.client action) := by
  have hheed (c : Connection) :
      (if c.client = action.client then f c else c) = c.heed c.client action := by
    simp only [Connection.heed, heffect, Option.map_some, Option.getD_some, eq_comm]
  have hmap : (l.update action.client f).queue = l.queue.map (fun c => c.heed c.client action) ∧
      (l.update action.client f).attached = l.attached.map (fun c => c.heed c.client action) := by
    simp only [update, hheed, and_self]
  rw [meet_of_effect heffect]
  split
  · exact hmap
  · rename_i hunknown
    have hother : ∀ c ∈ l.connections, c.heed c.client action = c := by
      intro c hc
      have hne : action.client ≠ c.client := by
        intro heq
        apply hunknown
        exact List.any_eq_true.mpr ⟨c, hc, by simp [heq]⟩
      rw [Connection.heed, if_neg hne]
    constructor
    · refine (List.map_id' _).symm.trans (List.map_congr_left fun c hc => ?_)
      exact (hother c (by simp [connections, hc])).symm
    · cases hattached : l.attached with
      | none => rfl
      | some c => rw [Option.map_some, hother c (by simp [connections, hattached])]

end Net

namespace Telemetry

open Net

/-- No connection has carried a complete line that sets inputs. -/
def Harmless (actions : List ClientAction) : Prop :=
  ∀ client stream, StreamOf actions client stream →
    ∀ line ∈ linesOf stream, levelsOfLine? line = none

theorem harmless_nil : Harmless [] := by
  rintro client stream ⟨before, after, hnil, -⟩
  exact absurd hnil.symm (by simp)

namespace Server

/-- What the server has of each stream: nothing of those whose clients wait, and of the one that is
served whatever follows some complete lines. -/
structure Tracks (actions : List ClientAction) (s : Server) : Prop where
  queued : ∀ c ∈ s.listener.queue, StreamOf actions c.client c.incoming.flatten
  attached : ∀ c, s.listener.attached = some c → ∃ handled, unfinished handled = [] ∧
    StreamOf actions c.client (handled ++ s.inbox ++ c.incoming.flatten)

variable {actions : List ClientAction} {s : Server}

theorem tracks_listen (reachable : Bool) (inputs : List InputChannel) (outputs : List OutputChannel) :
    ((listen reachable).register inputs outputs).Tracks [] where
  queued c hc := by cases hc
  attached c hc := by cases hc

/-- A vacant server has nothing of any stream. -/
theorem Tracks.of_vacant {t : Server} (h : s.Tracks actions)
    (hqueue : t.listener.queue = s.listener.queue) (hattached : t.listener.attached = none) :
    t.Tracks actions where
  queued := by
    rw [hqueue]
    exact h.queued
  attached c hc := by
    rw [hattached] at hc
    cases hc

namespace Tracks

theorem client (h : s.Tracks actions) (action : ClientAction) :
    (s.meet (.client action)).Tracks (actions ++ [action]) := by
  cases heffect : action.effect with
  | some f =>
    obtain ⟨hqueue, hattached⟩ := Listener.meet_eq_heed (l := s.listener) heffect
    have hold (client : Nat) : action ≠ .connect client := by
      rintro rfl
      cases heffect
    constructor
    · intro c hc
      change c ∈ (s.listener.meet action).queue at hc
      rw [hqueue, List.mem_map] at hc
      obtain ⟨c', hc', rfl⟩ := hc
      rw [Connection.heed_client, Connection.heed_incoming c' (hold _)]
      exact (h.queued c' hc').act action
    · intro c hc
      change (s.listener.meet action).attached = some c at hc
      rw [hattached, Option.map_eq_some_iff] at hc
      obtain ⟨c', hc', rfl⟩ := hc
      obtain ⟨handled, hend, hstream⟩ := h.attached c' hc'
      refine ⟨handled, hend, ?_⟩
      rw [Connection.heed_client, Connection.heed_incoming c' (hold _), ← List.append_assoc]
      exact hstream.act action
  | none =>
    obtain ⟨client, rfl⟩ : ∃ client, action = .connect client := by
      cases action with
      | connect client => exact ⟨client, rfl⟩
      | send | close | abort | limit => cases heffect
    have hnothing (other : Nat) : (ClientAction.connect client).bytesOf other = [] := rfl
    have hsame (c : Connection) (stream : List UInt8) (hstream : StreamOf actions c.client stream) :
        StreamOf (actions ++ [.connect client]) c.client stream := by
      have hact := hstream.act (.connect client)
      rwa [hnothing c.client, List.append_nil] at hact
    constructor
    · intro c hc
      change c ∈ (s.listener.meet (.connect client)).queue at hc
      cases hreachable : s.listener.reachable with
      | true =>
        rw [Listener.meet_connect hreachable, List.mem_append, List.mem_singleton] at hc
        rcases hc with hc | rfl
        · exact hsame c _ (h.queued c hc)
        · exact streamOf_connect actions client
      | false =>
        simp only [Listener.meet, Listener.act, hreachable, Bool.false_eq_true, if_false] at hc
        exact hsame c _ (h.queued c hc)
    · intro c hc
      change (s.listener.meet (.connect client)).attached = some c at hc
      have hattached : s.listener.attached = some c := by
        cases hreachable : s.listener.reachable <;>
          simpa [Listener.meet, Listener.act, hreachable] using hc
      obtain ⟨handled, hend, hstream⟩ := h.attached c hattached
      exact ⟨handled, hend, hsame c _ hstream⟩

theorem accept (h : s.Tracks actions) : s.accept.Tracks actions := by
  cases hattached : s.listener.attached with
  | some c => rwa [accept_of_attached hattached]
  | none =>
    cases hqueue : s.listener.queue with
    | nil =>
      have hlistener : s.accept.listener = s.listener := by
        rw [accept_listener, Listener.accept, hattached, hqueue]
      exact h.of_vacant (by rw [hlistener]) (by rw [hlistener, hattached])
    | cons c rest =>
      have haccept : s.accept = { s with
          listener := { s.listener with attached := some c, queue := rest }
          inbox := [], outbox := s.registration ++ s.levelLines } := by
        have hvacant : s.connected = false := by simp [connected, Listener.connected, hattached]
        simp [Server.accept, Listener.accept, hvacant, hattached, hqueue, Listener.connected]
      have hqueued := h.queued
      rw [hqueue] at hqueued
      rw [haccept]
      constructor
      · exact fun c' hc' => hqueued c' (List.mem_cons_of_mem c hc')
      · intro c' hc'
        obtain rfl := Option.some.inj hc'
        exact ⟨[], rfl, hqueued c List.mem_cons_self⟩

theorem disconnect (h : s.Tracks actions) : s.disconnect.Tracks actions := by
  have hlistener : s.listener.detach.queue = s.listener.queue ∧
      s.listener.detach.attached = none := by
    cases hattached : s.listener.attached <;> simp [Listener.detach, hattached]
  exact h.of_vacant hlistener.1 hlistener.2

theorem flush (h : s.Tracks actions) : s.flush.Tracks actions := by
  have hcases := s.flush_cases
  generalize s.flush = flushed at hcases
  cases hcases with
  | vacant | empty => exact h
  | lost => exact h.disconnect
  | @taken c c' outbox hattached hwrites =>
    refine ⟨h.queued, fun c'' hc'' => ?_⟩
    obtain rfl : c' = c'' := Option.some.inj hc''
    rw [hwrites.client_eq, hwrites.incoming_eq]
    exact h.attached c hattached

theorem fillInbox (h : s.Tracks actions) : s.fillInbox.Tracks actions := by
  unfold Server.fillInbox
  split
  · exact h
  · rename_i c hattached
    obtain ⟨handled, hend, hstream⟩ := h.attached c hattached
    simp only
    split
    · rename_i inbox hfill htail
      have hopen : c.reset = false := by
        cases hreset : c.reset with
        | false => rfl
        | true => simp [Connection.readChunks, Connection.tail, hreset] at htail
      rw [readChunks_of_open hopen] at hfill ⊢
      refine ⟨h.queued, fun c' hc' => ?_⟩
      obtain rfl := Option.some.inj hc'
      refine ⟨handled, hend, ?_⟩
      rw [fill?_eq_some hfill, flatten_chunks]
      simpa using hstream
    · exact h.of_vacant rfl rfl

/-- The lines that a poll finds are lines of a stream. -/
theorem levels_eq_nil (h : s.Tracks actions) (hharmless : Harmless actions)
    (hconnected : s.connected = true) : (linesOf s.inbox).filterMap levelsOfLine? = [] := by
  obtain ⟨c, hc⟩ := Option.isSome_iff_exists.mp hconnected
  obtain ⟨handled, hend, hstream⟩ := h.attached c hc
  rw [List.filterMap_eq_nil_iff]
  intro line hline
  apply hharmless _ _ hstream
  rw [linesOf_append, linesOf_append, hend, List.nil_append]
  exact List.mem_append_left _ (List.mem_append_right _ hline)

/-- What is left in the inbox after a poll still follows complete lines. -/
theorem keep_unfinished (h : s.Tracks actions) :
    ({ s with inbox := unfinished s.inbox } : Server).Tracks actions := by
  refine ⟨h.queued, fun c hc => ?_⟩
  obtain ⟨handled, hend, hstream⟩ := h.attached c hc
  obtain ⟨hjoin, hlines, -⟩ := exists_joinLines s.inbox
  have hsplit : joinLines (linesOf s.inbox) [] ++ unfinished s.inbox = s.inbox := by
    rw [joinLines, List.append_nil]
    exact hjoin
  have hdone : unfinished (joinLines (linesOf s.inbox) []) = [] := by
    rw [unfinished, splitLines_joinLines hlines List.not_mem_nil]
  refine ⟨handled ++ joinLines (linesOf s.inbox) [], ?_, ?_⟩
  · rw [unfinished_append, hend, List.nil_append, hdone]
  · rw [List.append_assoc handled, hsplit]
    exact hstream

theorem poll (h : s.Tracks actions) : s.poll.1.Tracks actions := by
  have hfilled := h.accept.flush.fillInbox
  rw [Server.poll]
  simp only
  split
  · exact hfilled.keep_unfinished
  · exact hfilled

/-- No poll gives inputs. -/
theorem poll_silent (h : s.Tracks actions) (hharmless : Harmless actions) : s.poll.2 = none := by
  have hfilled := h.accept.flush.fillInbox
  rw [Server.poll]
  simp only
  split
  · rename_i hconnected
    have hnil := hfilled.levels_eq_nil hharmless hconnected
    rw [linesOf] at hnil
    rw [hnil]
    rfl
  · rfl

theorem push (h : s.Tracks actions) (change : Change) : (s.push change).Tracks actions := by
  have hsent : ((s.accept.remember change).send (.output change)).Tracks actions := by
    unfold send
    split
    · exact ⟨h.accept.queued, h.accept.attached⟩
    · exact ⟨h.accept.queued, h.accept.attached⟩
  exact hsent.flush

end Tracks

end Server

/-! ### The relay -/

namespace Relay

variable {M : Type} [HardwareModel M] {actions : List ClientAction} {m : Relay Server}

theorem tracks_pushByte (h : m.endpoint.Tracks actions) (now : Time) (byte : UInt8) :
    (m.pushByte now byte).endpoint.Tracks actions :=
  h.push _

theorem tracks_publish (h : m.endpoint.Tracks actions) (now : Time) (leds : Word) :
    (m.publish now leds).endpoint.Tracks actions := by
  apply List.foldlRecOn (motive := fun m' : Relay Server => m'.endpoint.Tracks actions)
  · exact h
  · intro m' h' i _
    unfold publishBit
    simp only
    split
    · exact h'
    · exact h'.push _

theorem tick_eq_publish (m : Relay Server) (now : Time) (f : Fixture M) :
    m.tick now f =
      ((m.pollInputs now f).1.publish now ((m.pollInputs now f).2.read .gpioOut),
        (m.pollInputs now f).2) := rfl

theorem tracks_tick (h : m.endpoint.Tracks actions) (now : Time) (f : Fixture M) :
    (m.tick now f).1.endpoint.Tracks actions := by
  have hpoll : (m.pollInputs now f).1.endpoint.Tracks actions := by
    unfold pollInputs
    split
    · exact h
    · have hpolled : (Endpoint.poll m.endpoint).1.Tracks actions := h.poll
      cases hlevels : (Endpoint.poll m.endpoint).2 <;> simpa only [hlevels] using hpolled
  have hpublished := tracks_publish hpoll now ((m.pollInputs now f).2.read .gpioOut)
  rw [tick_eq_publish]
  exact hpublished

/-- A tick on harmless streams drives nothing. -/
theorem tick_silent (h : m.endpoint.Tracks actions) (hharmless : Harmless actions) (now : Time)
    (f : Fixture M) : (m.tick now f).2 = f := by
  have hnone : (Endpoint.poll m.endpoint).2 = none := h.poll_silent hharmless
  rw [tick_eq_publish, pollInputs]
  split
  · rfl
  · simp only [hnone]

end Relay

end Telemetry

end PinBench
