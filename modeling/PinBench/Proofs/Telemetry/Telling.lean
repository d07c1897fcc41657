import PinBench.Proofs.Telemetry.Wire

/-! What an observer is told.  A new one hears the channel tables, then the last change of every
level channel that has had one, then every change that is published while it is its turn.
`observer_hears` is the law of all its lines, whatever observers have come and gone before, and says
that an observer that has read them knows the last value of every level channel.  A connection that
blocks keeps back the end of the lines. -/

namespace PinBench.Telemetry

def levelNames (outputs : List OutputChannel) : List String :=
  (outputs.filter (·.isLevel)).map (·.name)

/-- The level channels in the order of their names. -/
def nameOrder (outputs : List OutputChannel) : List String :=
  (levelNames outputs).eraseDups.mergeSort fun a b => decide (a ≤ b)

/-- The last change of a channel. -/
def lastChange (changes : List Change) (channel : String) : Option Change :=
  (changes.filter (·.channel = channel)).getLast?

/-- The last change of each of some channels that has had one. -/
def snapshot (names : List String) (changes : List Change) : List Change :=
  names.filterMap (lastChange changes)

/-- What an observer makes of a message, with what it knows of the values of the channels. -/
def ServerMessage.note (known : String → Option UInt64) : ServerMessage → String → Option UInt64
  | .register _ _ => known
  | .output change => fun channel =>
    if channel = change.channel then some change.value else known channel

/-- What an observer knows of the values of the channels after some messages. -/
def view (heard : List ServerMessage) : String → Option UInt64 :=
  heard.foldl ServerMessage.note fun _ => none

/-! ### Last changes -/

section Last

variable {names : List String} {changes earlier later : List Change} {channel : String}

theorem channel_of_lastChange {change : Change} (h : lastChange changes channel = some change) :
    change.channel = channel := by
  have hmem := List.mem_of_getLast? h
  simpa using (List.mem_filter.mp hmem).2

theorem lastChange_append (earlier later : List Change) (channel : String) :
    lastChange (earlier ++ later) channel =
      (lastChange later channel).or (lastChange earlier channel) := by
  rw [lastChange, List.filter_append, List.getLast?_append]
  rfl

theorem lastChange_singleton (change : Change) (channel : String) :
    lastChange [change] channel = if change.channel = channel then some change else none := by
  by_cases h : change.channel = channel <;> simp [lastChange, h]

/-- A snapshot has the last change of its channels. -/
theorem lastChange_snapshot (hnames : names.Nodup) (hchannel : channel ∈ names) :
    lastChange (snapshot names changes) channel = lastChange changes channel := by
  induction names with
  | nil => cases hchannel
  | cons name rest ih =>
    obtain ⟨hnew, hrest⟩ := List.nodup_cons.mp hnames
    have hcons : snapshot (name :: rest) changes =
        (lastChange changes name).toList ++ snapshot rest changes := by
      rw [snapshot, List.filterMap_cons]
      cases lastChange changes name <;> rfl
    rw [hcons, lastChange_append]
    by_cases hname : name = channel
    · subst hname
      have hlater : lastChange (snapshot rest changes) name = none := by
        rw [lastChange, List.getLast?_eq_none_iff, List.filter_eq_nil_iff]
        intro change hmem
        obtain ⟨other, hother, hlast⟩ := List.mem_filterMap.mp hmem
        rw [channel_of_lastChange hlast, decide_eq_true_eq]
        rintro rfl
        exact hnew hother
      rw [hlater]
      cases hlast : lastChange changes name with
      | none => rfl
      | some change =>
        rw [Option.toList_some, lastChange_singleton, if_pos (channel_of_lastChange hlast)]
        rfl
    · have hother : lastChange (lastChange changes name).toList channel = none := by
        cases hlast : lastChange changes name with
        | none => rfl
        | some change =>
          rw [Option.toList_some, lastChange_singleton, channel_of_lastChange hlast, if_neg hname]
      rw [hother, Option.or_none]
      exact ih hrest ((List.mem_cons.mp hchannel).resolve_left (Ne.symm hname))

/-- An observer knows the last values that it has heard of. -/
theorem view_outputs (changes : List Change) (channel : String) :
    view (changes.map .output) channel = (lastChange changes channel).map (·.value) := by
  induction changes using List.reverseRecOn with
  | nil => rfl
  | append_singleton changes change ih =>
    rw [List.map_append, view, List.foldl_append, ← view, lastChange_append, lastChange_singleton]
    simp only [List.map_cons, List.map_nil, List.foldl_cons, List.foldl_nil, ServerMessage.note, ih,
      eq_comm (a := channel)]
    split <;> rfl

theorem view_register (inputs : List InputChannel) (outputs : List OutputChannel)
    (heard : List ServerMessage) : view (.register inputs outputs :: heard) = view heard := rfl

end Last

/-! ### The level channels -/

theorem eraseDups_of_nodup {names : List String} (h : names.Nodup) : names.eraseDups = names := by
  induction names with
  | nil => rfl
  | cons name rest ih =>
    obtain ⟨hnew, hrest⟩ := List.nodup_cons.mp h
    have hkept : rest.filter (fun other => !other == name) = rest := by
      rw [List.filter_eq_self]
      intro other hother
      simp only [Bool.not_eq_true', beq_eq_false_iff_ne]
      rintro rfl
      exact hnew hother
    rw [List.eraseDups_cons, hkept, ih hrest]

theorem nameOrder_perm {outputs : List OutputChannel} (h : (levelNames outputs).Nodup) :
    (nameOrder outputs).Perm (levelNames outputs) := by
  rw [nameOrder, eraseDups_of_nodup h]
  exact List.mergeSort_perm _ _

theorem nameOrder_pairwise {outputs : List OutputChannel} (h : (levelNames outputs).Nodup) :
    (nameOrder outputs).Pairwise (· < ·) := by
  have hsorted : (nameOrder outputs).Pairwise fun a b => decide (a ≤ b) = true := by
    refine List.pairwise_mergeSort (fun a b c hab hbc => ?_) (fun a b => ?_) _
    · rw [decide_eq_true_eq] at *
      exact String.le_trans hab hbc
    · simpa using String.le_total a b
  have hdistinct : (nameOrder outputs).Nodup := (nameOrder_perm h).nodup_iff.mpr h
  refine (hsorted.and hdistinct).imp fun ⟨hle, hne⟩ => ?_
  exact Std.lt_of_le_of_ne (decide_eq_true_eq.mp hle) hne

namespace Server

variable {s : Server} {client : Nat} {c : Net.Connection}

/-! ### The tables -/

/-- What a server tells every new observer. -/
def tables (s : Server) : List UInt8 × List (String × Option Change) := (s.registration, s.levels)

theorem tables_accept (s : Server) : s.accept.tables = s.tables := by
  simp only [accept]
  split <;> rfl

theorem tables_flush (s : Server) : s.flush.tables = s.tables := by
  simp only [flush]
  repeat' split
  all_goals rfl

theorem tables_fillInbox (s : Server) : s.fillInbox.tables = s.tables := by
  simp only [fillInbox]
  repeat' split
  all_goals rfl

theorem tables_poll (s : Server) : s.poll.1.tables = s.tables := by
  have h : s.accept.flush.fillInbox.tables = s.tables := by
    rw [tables_fillInbox, tables_flush, tables_accept]
  rw [← h, poll]
  simp only
  split <;> rfl

theorem tables_push (s : Server) (change : Change) :
    (s.push change).tables = (s.remember change).tables := by
  have hsend : ∀ s : Server, (s.send (.output change)).tables = s.tables := by
    intro s
    unfold send
    split <;> rfl
  have haccept := tables_accept s
  simp only [tables, Prod.mk.injEq] at haccept
  rw [push, tables_flush, hsend]
  simp only [tables, remember, haccept]

/-- A server keeps the tables and the last change of every level channel. -/
theorem tables_run (inputs : List InputChannel) (outputs : List OutputChannel)
    (events : List Event) :
    ((opened inputs outputs).run events).tables = ((ServerMessage.register inputs outputs).line,
      (nameOrder outputs).map fun name => (name, lastChange (changesOf events) name)) := by
  induction events using List.reverseRecOn with
  | nil => rfl
  | append_singleton events e ih =>
    rw [run_concat]
    cases e with
    | client action =>
      rw [changesOf_client]
      exact ih
    | poll =>
      rw [changesOf_poll]
      exact (tables_poll _).trans ih
    | push change =>
      rw [changesOf_push]
      refine (tables_push _ change).trans ?_
      simp only [tables, Prod.mk.injEq] at ih
      simp only [tables, remember, ih.1, ih.2, List.map_map, Prod.mk.injEq, true_and]
      refine List.map_congr_left fun name _ => ?_
      simp only [Function.comp_apply, lastChange_append, lastChange_singleton,
        eq_comm (a := change.channel)]
      split <;> rfl

/-! ### What fails -/

/-- What waits cannot be written, because the observer has reset its connection. -/
def flushFails (s : Server) : Bool := !s.outbox.isEmpty && s.listener.attached.any (·.reset)

/-- A call does not tell its observer all there is to tell: too much waits already, or the write
fails. -/
def fails (s : Server) : Event → Bool
  | .client _ => false
  | .poll => s.accept.flushFails
  | .push change =>
    decide (maxPendingOutput < s.accept.outbox.length) ||
      ((s.accept.remember change).send (.output change)).flushFails

/-- No call fails while it is the turn of a client. -/
def spares (s : Server) (client : Nat) : List Event → Bool
  | [] => true
  | e :: rest =>
    !(s.listener.turn == some client && s.fails e) && (s.meet e).spares client rest

/-- The changes that are published while it is the turn of a client. -/
def told (s : Server) (client : Nat) : List Event → List Change
  | [] => []
  | e :: rest =>
    (if s.listener.turn = some client then e.change?.toList else []) ++ (s.meet e).told client rest

/-! ### One call -/

/-- It is the turn of an observer, and what it has been sent and what waits for it are some
messages.  Its connection never blocks if it is `free`. -/
structure Attends (s : Server) (client : Nat) (free : Prop) (heard : List ServerMessage)
    (c : Net.Connection) : Prop where
  served : s.listener.At client (.served c)
  room_eq : free → c.room = none
  heard_eq : c.outgoing.toList ++ s.outbox = heard.flatMap ServerMessage.line

/-- An observer was let go of, and what it has been sent and what could not be written are some
messages. -/
structure HasTold (s : Server) (client : Nat) (free : Prop) (heard : List ServerMessage)
    (c : Net.Connection) : Prop where
  parted : s.listener.At client (.parted c)
  heard_eq : ∃ unsent, c.outgoing.toList ++ unsent = heard.flatMap ServerMessage.line ∧
    (free → unsent = [])

variable {free : Prop} {heard : List ServerMessage}

theorem Attends.poll (h : s.accept.Attends client free heard c)
    (hspared : s.fails .poll = false) :
    (∃ c', s.poll.1.Attends client free heard c' ∧ (free → s.poll.1.outbox = [])) ∨
      ∃ c', s.poll.1.HasTold client free heard c' := by
  cases hreset : c.reset with
  | true =>
    have hempty : s.accept.outbox = [] := by
      simpa [fails, flushFails, h.served.client_of_served.1, hreset] using hspared
    have hheard := h.heard_eq
    rw [hempty] at hheard
    exact .inr ⟨c.close, poll_of_reset h.served hreset hempty, [], hheard, fun _ => rfl⟩
  | false =>
    obtain ⟨c₁, outbox, hwrites, hcases⟩ := poll_of_turn h.served hreset
    have hheard : c₁.outgoing.toList ++ outbox = heard.flatMap ServerMessage.line :=
      hwrites.outgoing_eq.trans h.heard_eq
    rcases hcases with ⟨-, -, -, hpoll⟩ | ⟨-, -, hparted⟩
    · rw [hpoll]
      have hread : c.SameEnd { c₁ with incoming := [] } :=
        hwrites.sameEnd.trans ⟨rfl, rfl, rfl, id⟩
      exact .inl ⟨_, ⟨h.served.serve hread, fun hfree => hread.free (h.room_eq hfree), hheard⟩,
        fun hfree => (hwrites.free (h.room_eq hfree)).2⟩
    · exact .inr ⟨_, hparted, outbox, hheard, fun hfree => (hwrites.free (h.room_eq hfree)).2⟩

theorem Attends.push (h : s.accept.Attends client free heard c) {change : Change}
    (hspared : s.fails (.push change) = false) :
    ∃ c', (s.push change).Attends client free (heard ++ [.output change]) c' ∧
      (free → (s.push change).outbox = []) := by
  simp only [fails, Bool.or_eq_false_iff, decide_eq_false_iff_not, Nat.not_lt] at hspared
  obtain ⟨hroom, hwritten⟩ := hspared
  -- The change itself waits, so the write would fail on a connection that was reset.
  have hopen : c.reset = false := by
    rw [send_of_turn h.served hroom] at hwritten
    simpa [flushFails, remember, h.served.client_of_served.1, ServerMessage.line] using hwritten
  obtain ⟨c₁, outbox, hwrites, hpush⟩ := push_of_turn h.served hopen hroom change
  rw [hpush]
  refine ⟨c₁, ⟨h.served.serve hwrites.sameEnd, fun hfree => hwrites.sameEnd.free (h.room_eq hfree),
    ?_⟩, fun hfree => (hwrites.free (h.room_eq hfree)).2⟩
  calc c₁.outgoing.toList ++ outbox
    _ = c.outgoing.toList ++ (s.accept.outbox ++ (ServerMessage.output change).line) :=
      hwrites.outgoing_eq
    _ = (heard ++ [ServerMessage.output change]).flatMap ServerMessage.line := by
      rw [← List.append_assoc, h.heard_eq, List.flatMap_append, List.flatMap_singleton]

theorem Attends.heed (h : s.Attends client free heard c) (hreachable : s.listener.reachable = true)
    {action : Net.ClientAction} (hold : action ≠ .connect client)
    (hfree : free → action.limits client = false) :
    (s.meet (.client action)).Attends client free heard (c.heed client action) := by
  refine ⟨h.served.heed hreachable hold,
    fun hyp => Net.Connection.heed_room (h.room_eq hyp) (hfree hyp), ?_⟩
  rw [Net.Connection.heed_outgoing]
  exact h.heard_eq

theorem HasTold.meet (h : s.HasTold client free heard c) (hreachable : s.listener.reachable = true)
    {e : Event} (hold : e ≠ .client (.connect client)) :
    ∃ c', (s.meet e).HasTold client free heard c' := by
  obtain ⟨c', hparted, houtgoing⟩ := parted_meet h.parted hreachable hold
  exact ⟨c', hparted, houtgoing ▸ h.heard_eq⟩

/-! ### Runs -/

/-- Where an observer stands that has heard `opening` and then the changes `told`, of all those that
were published since it was accepted. -/
inductive Hears (s : Server) (client : Nat) (free : Prop) (opening : List ServerMessage)
    (told changes : List Change) : Prop
  | attended {c : Net.Connection} :
      s.Attends client free (opening ++ told.map .output) c → (free → s.outbox = []) →
        told = changes → Hears s client free opening told changes
  | left {c : Net.Connection} :
      s.HasTold client free (opening ++ told.map .output) c →
        Hears s client free opening told changes

variable {opening : List ServerMessage} {told changes : List Change}

/-- What one call makes of an observer whose turn it is. -/
theorem Hears.of_call {e : Event} (hcall : e.action? = none)
    (h : s.accept.Attends client free (opening ++ told.map .output) c)
    (hspared : s.fails e = false) :
    (s.meet e).Hears client free opening (told ++ e.change?.toList)
      (told ++ e.change?.toList) := by
  cases e with
  | client action => cases hcall
  | poll =>
    simp only [Event.change?, Option.toList_none, List.append_nil]
    rcases h.poll hspared with ⟨c', hattends, hempty⟩ | ⟨c', htold⟩
    · exact .attended hattends hempty rfl
    · exact .left htold
  | push change =>
    obtain ⟨c', hattends, hempty⟩ := h.push hspared
    have hmap : opening ++ (told ++ [change]).map ServerMessage.output =
        opening ++ told.map .output ++ [.output change] := by simp
    rw [← hmap] at hattends
    exact .attended hattends hempty rfl

theorem Hears.meet (h : s.Hears client free opening told changes)
    (hreachable : s.listener.reachable = true) {e : Event} (hold : e ≠ .client (.connect client))
    (hfree : free → Net.limits client e.action?.toList = false)
    (hspared : (s.listener.turn == some client && s.fails e) = false) :
    (s.meet e).Hears client free opening
      (told ++ if s.listener.turn = some client then e.change?.toList else [])
      (changes ++ e.change?.toList) := by
  cases h with
  | attended hattends hempty htold =>
    have hturn := hattends.served.turn_eq
    rw [if_pos hturn, ← htold]
    cases e with
    | client action =>
      simp only [Event.change?, Option.toList_none, List.append_nil]
      refine .attended (hattends.heed hreachable (fun heq => hold (congrArg _ heq)) fun hyp => ?_)
        hempty rfl
      simpa [Net.limits, Event.action?] using hfree hyp
    | poll | push change =>
      have haccepted := hattends
      rw [← accept_of_attached hattends.served.client_of_served.1] at haccepted
      exact Hears.of_call rfl haccepted (by simpa [hturn] using hspared)
  | left htold =>
    rw [if_neg htold.parted.turn_ne, List.append_nil]
    obtain ⟨c', htold'⟩ := htold.meet hreachable hold
    exact .left htold'

theorem Hears.run (h : s.Hears client free opening told changes)
    (hreachable : s.listener.reachable = true) {events : List Event}
    (hold : .client (.connect client) ∉ events)
    (hfree : free → Net.limits client (actionsOf events) = false)
    (hspared : s.spares client events = true) :
    (s.run events).Hears client free opening (told ++ s.told client events)
      (changes ++ changesOf events) := by
  induction events generalizing s told changes with
  | nil =>
    rw [Server.told, changesOf, List.filterMap_nil, List.append_nil, List.append_nil]
    exact h
  | cons e rest ih =>
    rw [List.mem_cons, not_or] at hold
    rw [spares, Bool.and_eq_true, Bool.not_eq_true'] at hspared
    have hlimits : free → Net.limits client e.action?.toList = false ∧
        Net.limits client (actionsOf rest) = false := by
      intro hyp
      have hboth := hfree hyp
      rwa [actionsOf_cons, Net.limits, List.any_append, Bool.or_eq_false_iff] at hboth
    have hnext := ih (h.meet hreachable (Ne.symm hold.1) (fun hyp => (hlimits hyp).1) hspared.1)
      (reachable_meet hreachable e) hold.2 (fun hyp => (hlimits hyp).2) hspared.2
    rw [List.append_assoc, List.append_assoc] at hnext
    rw [Server.told, changesOf_cons]
    exact hnext

/-- A new observer is told how things stand. -/
theorem attends_accept {inputs : List InputChannel} {outputs : List OutputChannel}
    {before : List Event} (honce : (Net.connects (actionsOf before)).Nodup)
    (hvacant : ((opened inputs outputs).run before).connected = false)
    (hturn : ((opened inputs outputs).run before).listener.turn = some client) :
    ∃ c, Net.Connection.made client (actionsOf before) = some c ∧
      ((opened inputs outputs).run before).accept.Attends client
        (Net.limits client (actionsOf before) = false) (.register inputs outputs ::
          (snapshot (nameOrder outputs) (changesOf before)).map .output) c := by
  obtain ⟨c, hmade, hserved⟩ := (became_run inputs outputs before).next honce hvacant hturn
  have htables := tables_run inputs outputs before
  generalize (opened inputs outputs).run before = s at *
  simp only [tables, Prod.mk.injEq] at htables
  have haccept := accept_of_turn hvacant (by rw [hturn]; exact Option.some_ne_none _)
  refine ⟨c, hmade, by rwa [accept_listener], fun hfree => Net.Connection.made_room hfree hmade, ?_⟩
  rw [haccept, Net.Connection.made_outgoing hmade, htables.1, levelLines, htables.2]
  simp [snapshot, List.filterMap_map, List.flatMap_map]

/-- From the call that accepts it on, an observer stands where its lines say. -/
theorem hears_run {inputs : List InputChannel} {outputs : List OutputChannel}
    {before after : List Event} {call : Event} (hcall : call.action? = none)
    (honce : (Net.connects (actionsOf (before ++ call :: after))).Nodup)
    (hvacant : ((opened inputs outputs).run before).connected = false)
    (hturn : ((opened inputs outputs).run before).listener.turn = some client)
    (hspared : ((opened inputs outputs).run before).spares client (call :: after) = true) :
    ((opened inputs outputs).run (before ++ call :: after)).Hears client
      (Net.limits client (actionsOf (before ++ call :: after)) = false)
      (.register inputs outputs :: (snapshot (nameOrder outputs) (changesOf before)).map .output)
      (((opened inputs outputs).run before).told client (call :: after))
      (changesOf (call :: after)) := by
  rw [actionsOf_append] at honce
  obtain ⟨c, hmade, hattends⟩ := attends_accept (Net.nodup_connects_left honce) hvacant hturn
  have hlimits : Net.limits client (actionsOf (before ++ call :: after)) = false →
      Net.limits client (actionsOf before) = false ∧
        Net.limits client (actionsOf after) = false := by
    intro hfree
    rw [actionsOf_append, actionsOf_cons, hcall, Option.toList_none, List.nil_append, Net.limits,
      List.any_append, Bool.or_eq_false_iff] at hfree
    exact hfree
  have hattends : ((opened inputs outputs).run before).accept.Attends client
      (Net.limits client (actionsOf (before ++ call :: after)) = false)
      ((.register inputs outputs :: (snapshot (nameOrder outputs) (changesOf before)).map .output) ++
        ([] : List Change).map .output) c := by
    refine ⟨hattends.served, fun hfree => hattends.room_eq (hlimits hfree).1, ?_⟩
    rw [List.map_nil, List.append_nil]
    exact hattends.heard_eq
  have hold : .client (.connect client) ∉ after := fun hagain =>
    Net.connect_notMem honce hmade (mem_actionsOf (List.mem_cons_of_mem _ hagain))
  have hreachable := (became_run inputs outputs before).reachable_eq
  rw [run_append]
  generalize (opened inputs outputs).run before = s at *
  simp only [spares, hturn, beq_self_eq_true, Bool.true_and, Bool.and_eq_true,
    Bool.not_eq_true'] at hspared
  have hfirst := Hears.of_call hcall hattends hspared.1
  have hrest := hfirst.run (reachable_meet hreachable call) hold (fun hfree => (hlimits hfree).2)
    hspared.2
  rw [Server.told, if_pos hturn, changesOf_cons]
  exact hrest

/-- What the observer can collect and what has not been written are its lines. -/
theorem Hears.collectable_eq (h : s.Hears client free opening told changes) :
    ∃ unsent, s.listener.collectable client ++ unsent =
        (opening ++ told.map ServerMessage.output).flatMap ServerMessage.line ∧
      (free → unsent = []) ∧ (s.listener.turn = some client → unsent = s.outbox) := by
  cases h with
  | attended hattends hempty =>
    refine ⟨s.outbox, ?_, hempty, fun _ => rfl⟩
    rw [hattends.served.collectable_eq]
    exact hattends.heard_eq
  | left htold =>
    obtain ⟨unsent, hheard, hfree⟩ := htold.heard_eq
    refine ⟨unsent, ?_, hfree, fun hturn => absurd hturn htold.parted.turn_ne⟩
    rw [htold.parted.collectable_eq]
    exact hheard

theorem Hears.told_eq (h : s.Hears client free opening told changes)
    (hturn : s.listener.turn = some client) : told = changes := by
  cases h with
  | attended _ _ htold => exact htold
  | left htold => exact absurd hturn htold.parted.turn_ne

end Server

/-- The law of an observer's lines.  A server is told its channel tables, observers come and go, and
at a call that finds the server free it is the turn of a client, which connects once.  What the
client can collect and what has not been written yet are whole lines.  They are read as the tables,
then the last change before the call of every level channel that has had one, in the order of the
names, then every change that is published from that call on while it is the client's turn.  If
every write takes all its bytes, the client can collect all of them.  As long as it is its turn, no
change is missing, and what the lines say gives the last value of every level channel. -/
theorem observer_hears {inputs : List InputChannel} {outputs : List OutputChannel}
    (hnames : (levelNames outputs).Nodup) {before after : List Event} {call : Event}
    (hcall : call.action? = none) {client : Nat}
    (honce : (Net.connects (actionsOf (before ++ call :: after))).Nodup)
    (hvacant : ((Server.opened inputs outputs).run before).connected = false)
    (hturn : ((Server.opened inputs outputs).run before).listener.turn = some client)
    (hspared : ((Server.opened inputs outputs).run before).spares client (call :: after) = true) :
    ∃ (names : List String) (unsent : List UInt8), names.Perm (levelNames outputs) ∧
      names.Pairwise (· < ·) ∧
      let told := ((Server.opened inputs outputs).run before).told client (call :: after)
      let s := (Server.opened inputs outputs).run (before ++ call :: after)
      let lines := s.listener.collectable client ++ unsent
      messagesOf ServerMessage.read? lines =
          (.register inputs outputs ::
            (names.filterMap (lastChange (changesOf before)) ++ told).map .output).map some ∧
        unfinished lines = [] ∧
        (Net.limits client (actionsOf (before ++ call :: after)) = false → unsent = []) ∧
        (s.listener.turn = some client →
          unsent = s.outbox ∧ told = changesOf (call :: after) ∧
            ∀ name ∈ names, view (messagesOf ServerMessage.read? lines).reduceOption name =
              (lastChange (changesOf (before ++ call :: after)) name).map (·.value)) := by
  have hhears := Server.hears_run hcall honce hvacant hturn hspared
  obtain ⟨unsent, hlines, hfree, hwaits⟩ := hhears.collectable_eq
  obtain ⟨hmessages, hwhole⟩ := ServerMessage.roundTrips.read_stream
    (.register inputs outputs :: (snapshot (nameOrder outputs) (changesOf before) ++
      ((Server.opened inputs outputs).run before).told client (call :: after)).map .output)
  rw [List.cons_append, ← List.map_append] at hlines
  rw [← hlines] at hmessages hwhole
  refine ⟨nameOrder outputs, unsent, nameOrder_perm hnames, nameOrder_pairwise hnames, hmessages,
    hwhole, hfree, fun hstill => ?_⟩
  -- What was published before the call is in the snapshot, and the rest has been told.
  have htold := hhears.told_eq hstill
  refine ⟨hwaits hstill, htold, fun name hname => ?_⟩
  have hdistinct : (nameOrder outputs).Nodup := (nameOrder_perm hnames).nodup_iff.mpr hnames
  have hread (ms : List ServerMessage) : (ms.map some).reduceOption = ms := by
    show (ms.map some).filterMap id = ms
    rw [List.filterMap_map]
    exact List.filterMap_some
  rw [hmessages, hread]
  calc view (.register inputs outputs :: _) name
    _ = (lastChange (snapshot (nameOrder outputs) (changesOf before) ++ _) name).map (·.value) := by
      rw [view_register, view_outputs]
    _ = (lastChange (changesOf (before ++ call :: after)) name).map (·.value) := by
      rw [htold, changesOf_append, lastChange_append, lastChange_snapshot hdistinct hname,
        ← lastChange_append]

/-- A table with two level channels and a stream. -/
def threeOutputs : List OutputChannel :=
  [⟨0, "right", .level 0⟩, ⟨1, "left", .level 1⟩, ⟨2, "bytes", .stream⟩]

/-- The kernel does not sort, but there is only one order of the names. -/
theorem eq_left_right {names : List String} (hperm : names.Perm (levelNames threeOutputs))
    (hsorted : names.Pairwise (· < ·)) : names = ["left", "right"] := by
  have hswap : names.Perm ["left", "right"] := hperm.trans (.swap "left" "right" [])
  exact hswap.eq_of_pairwise (fun a b _ _ hab hba => absurd hab (String.lt_asymm hba)) hsorted
    (by decide +kernel)

theorem opened_threeOutputs :
    Server.opened [] threeOutputs =
      { Server.listen true with
        registration := (ServerMessage.register [] threeOutputs).line
        levels := [("left", none), ("right", none)] } := by
  have hnames : (levelNames threeOutputs).Nodup := by decide +kernel
  have horder : nameOrder threeOutputs = ["left", "right"] :=
    eq_left_right (nameOrder_perm hnames) (nameOrder_pairwise hnames)
  show { Server.listen true with
      registration := (ServerMessage.register [] threeOutputs).line
      levels := (nameOrder threeOutputs).map (·, none) } = _
  rw [horder]
  rfl

/-- One observer comes and goes, and another waits when the next change is published. -/
def handOver : List Event :=
  [.client (.connect 1), .push ⟨"left", 1, 10⟩, .push ⟨"bytes", 65, 20⟩, .client (.close 1), .poll,
    .push ⟨"left", 0, 30⟩, .client (.connect 2)]

/-- The lines that the second observer can collect. -/
def handOverText : String :=
  "\x7b\"type\":\"register\",\"inputs\":[],\"outputs\":[\x7b\"id\":0,\"name\":\"right\"," ++
    "\"kind\":\"level\",\"bit\":0\x7d,\x7b\"id\":1,\"name\":\"left\",\"kind\":\"level\"," ++
    "\"bit\":1\x7d," ++
    "\x7b\"id\":2,\"name\":\"bytes\",\"kind\":\"stream\"\x7d]\x7d\n" ++
    "\x7b\"type\":\"output\",\"channel\":\"left\",\"value\":0,\"time\":30\x7d\n" ++
    "\x7b\"type\":\"output\",\"channel\":\"right\",\"value\":1,\"time\":40\x7d\n"

theorem observer_hears_handOver :
    let call := Event.push ⟨"right", 1, 40⟩
    let s := (Server.opened [] threeOutputs).run handOver
    let last := (Server.opened [] threeOutputs).run (handOver ++ [call, .poll])
    let heard := messagesOf ServerMessage.read? (last.listener.collectable 2)
    ((levelNames threeOutputs).Nodup ∧ call.action? = none ∧
      (Net.connects (actionsOf (handOver ++ [call, .poll]))).Nodup ∧ s.connected = false ∧
      s.listener.turn = some 2 ∧ s.spares 2 [call, .poll] = true) ∧
    last.listener.collectable 2 = handOverText.toList.map (fun c => UInt8.ofNat c.toNat) ∧
      heard = [some (.register [] threeOutputs), some (.output ⟨"left", 0, 30⟩),
        some (.output ⟨"right", 1, 40⟩)] ∧
      view heard.reduceOption "left" = some 0 ∧ view heard.reduceOption "right" = some 1 := by
  intro call s last heard
  have hnames : (levelNames threeOutputs).Nodup := by decide +kernel
  have hvacant : s.connected = false := by
    simp only [s, opened_threeOutputs]
    decide +kernel
  have hturn : s.listener.turn = some 2 := by
    simp only [s, opened_threeOutputs]
    decide +kernel
  have hspared : s.spares 2 [call, .poll] = true := by
    simp only [s, opened_threeOutputs]
    decide +kernel
  have htold : s.told 2 [call, .poll] = [⟨"right", 1, 40⟩] := by
    simp only [s, opened_threeOutputs]
    decide +kernel
  have hstill : last.listener.turn = some 2 := by
    simp only [last, opened_threeOutputs]
    decide +kernel
  have hbytes : last.listener.collectable 2 =
      handOverText.toList.map (fun c => UInt8.ofNat c.toNat) := by
    simp only [last, opened_threeOutputs]
    decide +kernel
  have honce : (Net.connects (actionsOf (handOver ++ [call, .poll]))).Nodup := by decide
  have hfree : Net.limits 2 (actionsOf (handOver ++ [call, .poll])) = false := by decide +kernel
  obtain ⟨names, unsent, hperm, hsorted, hheard, -, hall, hknows⟩ :=
    observer_hears hnames rfl honce hvacant hturn hspared
  obtain rfl := eq_left_right hperm hsorted
  obtain rfl := hall hfree
  rw [htold, List.append_nil] at hheard
  obtain ⟨-, -, hview⟩ := hknows hstill
  rw [List.append_nil] at hview
  refine ⟨⟨hnames, rfl, honce, hvacant, hturn, hspared⟩, hbytes, hheard.trans ?_, ?_, ?_⟩
  · decide +kernel
  · exact (hview "left" (by decide)).trans (by decide +kernel)
  · exact (hview "right" (by decide)).trans (by decide +kernel)

end PinBench.Telemetry
