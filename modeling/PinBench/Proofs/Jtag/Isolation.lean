import PinBench.Proofs.Jtag.Visits

/-! Sessions with a debug server, one after another.  `sessions_isolated_but_for_cut` is the law of
each of them, whatever clients have come and gone before: its lines and replies are those of the
client's own requests, but a request that was under way when the server closed a session before it
is finished in it first.  Nothing that an earlier client had sent or was still owed is left. -/

namespace PinBench.Jtag

/-- What the steps among some events show while it is the turn of a client. -/
def Server.sights (s : Server) (client : Nat) : List Event → List Observation
  | [] => []
  | e :: rest =>
    (if s.listener.turn = some client then s.shows e else []) ++ (s.meet e).sights client rest

theorem Server.sights_concat (s : Server) (client : Nat) (events : List Event) (e : Event) :
    s.sights client (events ++ [e]) = s.sights client events ++
      if (s.run events).listener.turn = some client then (s.run events).shows e else [] := by
  induction events generalizing s with
  | nil =>
    rw [List.nil_append, sights, sights, sights, List.append_nil]
    rfl
  | cons first rest ih =>
    rw [List.cons_append, sights, ih, sights, List.append_assoc]
    rfl

/-- What was still to be written to a client when the server closed its session. -/
def Server.dropped (s : Server) (client : Nat) : List Event → List UInt8
  | [] => []
  | e :: rest => (if e = .close then s.owed client else []) ++ (s.meet e).dropped client rest

theorem Server.dropped_concat (s : Server) (client : Nat) (events : List Event) (e : Event) :
    s.dropped client (events ++ [e]) = s.dropped client events ++
      if e = .close then (s.run events).owed client else [] := by
  induction events generalizing s with
  | nil =>
    rw [List.nil_append, dropped, dropped, dropped, List.append_nil]
    rfl
  | cons first rest ih =>
    rw [List.cons_append, dropped, ih, dropped, List.append_assoc]
    rfl

/-- What a session has before it: `found` is where the lines were before the requests `cut`, which
the bytes `raw` ask for, and `current` is data-out in the steps that they have had already. -/
structure Opening where
  found : Lines
  cut : List Transfer
  raw : List UInt8
  current : List Bool

/-- The past of a session whose client has made its connection `made`, which may have had only so
much room. -/
def Opening.past (o : Opening) (made : Net.Connection) (limited : Bool) (seen : List Observation) :
    Past :=
  { client := made.client, start := o.found, bytes := o.raw ++ made.incoming.flatten
    ended := made.ended, limited
    levels := (waveforms o.found o.cut).take o.current.length ++ levelsOf seen
    tdos := o.current ++ tdosOf seen }

/-- Whatever follows them, the bytes of an opening ask for its requests. -/
def Opening.Leading (o : Opening) : Prop := ∀ more, Leads (o.raw ++ more) o.cut more

section Past

variable {o : Opening} {made : Net.Connection} {limited : Bool} {seen : List Observation}

theorem Opening.past_heed (o : Opening) (made : Net.Connection) (limited : Bool)
    (seen : List Observation) (action : Net.ClientAction) :
    o.past (made.heed made.client action) (limited || action.limits made.client) seen =
      (o.past made limited seen).heed action := by
  by_cases hown : action.client = made.client
  · cases action with
    | connect other =>
      simp [past, Net.Connection.heed, Net.ClientAction.effect, Net.ClientAction.limits, Past.heed]
    | send other bytes =>
      obtain rfl : other = made.client := hown
      simp [past, Net.Connection.heed, Net.ClientAction.client, Net.ClientAction.effect,
        Net.ClientAction.limits, Net.Connection.send, Past.heed, Past.arrive]
    | close other =>
      obtain rfl : other = made.client := hown
      simp [past, Net.Connection.heed, Net.ClientAction.client, Net.ClientAction.effect,
        Net.ClientAction.limits, Net.Connection.finish, Past.heed, Past.hangUp]
    | abort other =>
      obtain rfl : other = made.client := hown
      simp [past, Net.Connection.heed, Net.ClientAction.client, Net.ClientAction.effect,
        Net.ClientAction.limits, Net.Connection.abort, Past.heed]
    | limit other room =>
      obtain rfl : other = made.client := hown
      simp [past, Net.Connection.heed, Net.ClientAction.client, Net.ClientAction.effect,
        Net.ClientAction.limits, Net.Connection.limit, Past.heed, Past.limit]
  · have hlimits : action.limits made.client = false := by
      cases action with
      | limit other room =>
        have hne : other ≠ made.client := hown
        simp [Net.ClientAction.limits, hne]
      | connect | send | close | abort => rfl
    rw [Past.heed_of_other hown, Net.Connection.heed, if_neg hown, hlimits, Bool.or_false]

theorem Opening.past_step {cycle : Nat} {tdo : Bool} {s : Server} :
    o.past made limited (seen ++ [s.observe cycle tdo]) =
      if (s.observe cycle tdo).active then
        (o.past made limited seen).clock tdo (s.observe cycle tdo).after
      else o.past made limited seen := by
  cases hactive : (s.observe cycle tdo).active with
  | true =>
    have htdo : (s.observe cycle tdo).tdo = tdo := rfl
    simp [past, Past.clock, levelsOf, tdosOf, hactive, htdo]
  | false => simp [past, levelsOf, tdosOf, hactive]

end Past

/-- A session starts with what is left over. -/
theorem Leftover.opening {shifter : Shifter} {cut : List Transfer} {found : Lines}
    {current : List Bool} (h : Leftover shifter cut found current) :
    ∃ o : Opening, o.found = found ∧ o.cut = cut ∧ o.current = current ∧ o.Leading ∧
      ∀ (made : Net.Connection) (limited : Bool),
        (cut = [] ∧ shifter = ⟨none, (o.past made limited []).lines⟩ ∧
          Settled found [] (o.past made limited []).levels (o.past made limited []).tdos []) ∨
        ∃ t, cut = [t] ∧ shifter = ⟨some (t.after current), (o.past made limited []).lines⟩ ∧
          Clocking found [] t current (o.past made limited []).levels
            (o.past made limited []).tdos [] := by
  cases h with
  | nothing hidle =>
    refine ⟨⟨shifter.lines, [], [], []⟩, rfl, rfl, rfl, fun more => .refl more,
      fun made _ => .inl ?_⟩
    refine ⟨rfl, ?_, .nil _⟩
    show shifter = ⟨none, shifter.lines⟩
    rw [← hidle]
  | @rest t found current hread hlt hshifter =>
    obtain ⟨raw, r, hlen, hdecode, ht⟩ := hread
    refine ⟨⟨found, [t], raw, current⟩, rfl, rfl, rfl,
      fun more => (Leads.refl (raw ++ more)).take hlen hdecode ht, fun made _ => .inr ⟨t, rfl, ?_, ?_⟩⟩
    · rw [hshifter]
      simp [Opening.past, Past.lines, waveforms, levelsOf, Transfer.levelAt]
    · refine ⟨hlt, [], [], .nil found, ?_, ?_⟩
      · simp [Opening.past, tdosOf]
      · simp [Opening.past, levelsOf, waveforms]

/-- The next client finds its session open, or has already reset its connection. -/
theorem Opening.visit {s : Server} {c : Net.Connection} {cut : List Transfer} {found : Lines}
    {current : List Bool} (hat : s.accepted.listener.At client (.served c)) (hinbox : s.inbox = [])
    (houtbox : s.outbox = []) (hunread : c.outgoing = #[]) {limited : Bool}
    (hroom : limited = false → c.room = none) (h : Leftover s.shifter cut found current) :
    ∃ o : Opening, o.found = found ∧ o.cut = cut ∧ o.current = current ∧ o.Leading ∧
      Visit (o.past c limited []) c.reset [] s := by
  obtain ⟨hattached, rfl⟩ := hat.client_of_served
  obtain ⟨o, rfl, rfl, rfl, hleading, hstart⟩ := h.opening
  refine ⟨o, rfl, rfl, rfl, hleading, ?_⟩
  have hleads : Leads (o.past c limited []).bytes o.cut c.incoming.flatten :=
    hleading c.incoming.flatten
  have hwritten : c.outgoing.toList ++ s.outbox = [] := by
    rw [hunread, houtbox]
    rfl
  cases hreset : c.reset with
  | true =>
    refine .doomed hat hreset (by rw [hinbox]; decide) ?_
    rw [hwritten]
    rcases hstart c limited with ⟨hcut, hshifter, hsettled⟩ | ⟨t, hcut, hshifter, hclocking⟩ <;>
      rw [hcut] at hleads
    · exact .settled hshifter hleads.isPrefix hsettled
    · exact .clocking hshifter hleads.isPrefix hclocking
  | false =>
    refine .attending hat ?_
    have hlinked : Linked (o.past c limited []) c (s.accepted.seen c.client) :=
      ⟨hat.holds, hreset, rfl, hroom⟩
    have hempty : (s.accepted.seen (o.past c limited []).client).inbox = [] := hinbox
    have hshort : (s.accepted.seen (o.past c limited []).client).inbox.length < recordSize := by
      rw [hempty]
      decide
    rcases hstart c limited with ⟨hcut, hshifter, hsettled⟩ | ⟨t, hcut, hshifter, hclocking⟩ <;>
      rw [hcut] at hleads
    · rw [← hwritten] at hsettled
      refine .idle ⟨hlinked, hshifter, hshort, ?_, hsettled⟩ fun _ => houtbox
      rw [hempty]
      exact hleads
    · have hnothing : c.outgoing.toList = [] := by rw [hunread]
      rw [← hnothing] at hclocking
      exact .busy ⟨hlinked, hshifter, hempty, houtbox, hleads, hclocking⟩

/-- Where the session of a client stands that has made its connection `made`, what the steps in its
turn have shown, and what was dropped of what it was owed. -/
structure Opening.Attends (o : Opening) (made : Net.Connection) (limited : Bool)
    (dropped : List UInt8) (seen : List Observation) (s : Server) : Prop where
  still : ∀ o ∈ seen, o.active = false → o.after = o.before
  visit : Visit (o.past made limited seen) made.reset dropped s

namespace Opening.Attends

variable {o : Opening} {made : Net.Connection} {limited : Bool} {dropped : List UInt8}
  {seen : List Observation} {s : Server}

theorem client (h : o.Attends made limited dropped seen s) (hreachable : s.listener.reachable = true)
    {action : Net.ClientAction} (hold : action ≠ .connect made.client) :
    o.Attends (made.heed made.client action) (limited || action.limits made.client) dropped seen
      (s.meet (.client action)) := by
  refine ⟨h.still, ?_⟩
  rw [Opening.past_heed, Net.Connection.heed_reset]
  exact h.visit.client hreachable hold

theorem step (h : o.Attends made limited dropped seen s)
    (hturn : s.listener.turn = some made.client) (cycle : Nat) (tdo : Bool) :
    o.Attends made limited dropped (seen ++ [s.observe cycle tdo]) (s.step cycle tdo) := by
  obtain ⟨hvisit, hstill⟩ := h.visit.step hturn cycle tdo
  constructor
  · intro o' ho'
    rcases List.mem_append.mp ho' with hold | hnew
    · exact h.still o' hold
    · rw [List.mem_singleton.mp hnew]
      exact hstill
  · rw [Opening.past_step]
    exact hvisit

theorem step_other (h : o.Attends made limited dropped seen s)
    (hturn : s.listener.turn ≠ some made.client) (cycle : Nat) (tdo : Bool) :
    o.Attends made limited dropped seen (s.step cycle tdo) :=
  ⟨h.still, h.visit.step_other hturn cycle tdo⟩

theorem close (h : o.Attends made limited dropped seen s) (hsound : s.Sound) :
    o.Attends made limited (dropped ++ s.owed made.client) seen s.close :=
  ⟨h.still, h.visit.close hsound⟩

end Opening.Attends

section Run

variable {interface : Net.Interface} {client : Nat}

/-- A session starts when it is a client's turn and no other is served. -/
theorem attends_next {earlier : List Event} (honce : (Net.connects (actionsOf earlier)).Nodup)
    (hvacant : ((Server.listen interface true).run earlier).connected = false)
    (hturn : ((Server.listen interface true).run earlier).listener.turn = some client)
    {cut : List Transfer} {found : Lines} {current : List Bool}
    (hleft : Leftover ((Server.listen interface true).run earlier).shifter cut found current) :
    ∃ o : Opening, o.found = found ∧ o.cut = cut ∧ o.current = current ∧ o.Leading ∧
      ∃ c, Net.Connection.made client (actionsOf earlier) = some c ∧ c.client = client ∧
        o.Attends c (Net.limits client (actionsOf earlier)) [] []
          ((Server.listen interface true).run earlier) := by
  obtain ⟨c, hmade, hserved⟩ := (Server.became_run interface earlier).next honce hvacant hturn
  obtain ⟨hinbox, houtbox⟩ := (Server.sound_run interface earlier).empty (.inl hvacant)
  obtain ⟨o, hfound, hcut, hcurrent, hleading, hvisit⟩ := Opening.visit hserved hinbox houtbox
    (Net.Connection.made_outgoing hmade) (fun hfree => Net.Connection.made_room hfree hmade) hleft
  refine ⟨o, hfound, hcut, hcurrent, hleading, c, hmade, hserved.client_of_served.2, ?_, hvisit⟩
  intro o ho
  cases ho

/-- What one event keeps of a session, all events keep. -/
theorem Opening.Attends.run {o : Opening} {earlier during : List Event} {c : Net.Connection}
    (h : o.Attends c (Net.limits client (actionsOf earlier)) [] []
      ((Server.listen interface true).run earlier))
    (hmade : Net.Connection.made client (actionsOf earlier) = some c) (hclient : c.client = client)
    (honce : (Net.connects (actionsOf (earlier ++ during))).Nodup) :
    ∃ made, Net.Connection.made client (actionsOf (earlier ++ during)) = some made ∧
      made.client = client ∧
      o.Attends made (Net.limits client (actionsOf (earlier ++ during)))
        (((Server.listen interface true).run earlier).dropped client during)
        (((Server.listen interface true).run earlier).sights client during)
        ((Server.listen interface true).run (earlier ++ during)) := by
  -- From the back, because what a client may do depends on all that it has done before.
  induction during using List.reverseRecOn with
  | nil =>
    rw [List.append_nil]
    exact ⟨c, hmade, hclient, h⟩
  | append_singleton during e ih =>
    rw [← List.append_assoc, actionsOf_append] at honce
    obtain ⟨made, hmade, hclient, hattends⟩ := ih (Net.nodup_connects_left honce)
    rw [Server.sights_concat, Server.dropped_concat, ← Server.run_append, ← List.append_assoc,
      Server.run_concat, actionsOf_append]
    cases e with
    | client action =>
      have hold : action ≠ .connect client := by
        rintro rfl
        exact Net.connect_notMem honce hmade (by simp [actionsOf, Event.action?])
      have hreachable := (Server.became_run interface (earlier ++ during)).reachable_eq
      have hlimits : Net.limits client (actionsOf (earlier ++ during) ++ [action]) =
          (Net.limits client (actionsOf (earlier ++ during)) || action.limits client) := by
        simp only [Net.limits, List.any_append, List.any_cons, List.any_nil, Bool.or_false]
      rw [show actionsOf [Event.client action] = [action] from rfl]
      refine ⟨made.heed client action, ?_, ?_, ?_⟩
      · exact Net.Connection.made_concat hmade hold
      · exact (Net.Connection.heed_client made).trans hclient
      · rw [hlimits, if_neg (by simp), List.append_nil]
        simp only [Server.shows, ite_self, List.append_nil]
        subst hclient
        exact hattends.client hreachable hold
    | step cycle tdo =>
      rw [show actionsOf [Event.step cycle tdo] = [] from rfl, List.append_nil,
        if_neg (by simp), List.append_nil]
      refine ⟨made, hmade, hclient, ?_⟩
      simp only [Server.shows]
      subst hclient
      split
      · rename_i hturn
        exact hattends.step hturn cycle tdo
      · rename_i hturn
        rw [List.append_nil]
        exact hattends.step_other hturn cycle tdo
    | close =>
      rw [show actionsOf [Event.close] = [] from rfl, List.append_nil, if_pos rfl]
      refine ⟨made, hmade, hclient, ?_⟩
      simp only [Server.shows, ite_self, List.append_nil]
      subst hclient
      exact hattends.close (Server.sound_run interface _)

/-- What the client of a session can collect, whether it is over or not, with what was dropped and
what still waits. -/
theorem Visit.kept {p : Past} {reset : Bool} {dropped : List UInt8} {s : Server}
    (h : Visit p reset dropped s) :
    Kept p (!reset) (s.listener.collectable p.client ++ (dropped ++ s.owed p.client)) ∧
      (reset = false → p.limited = false → dropped = [] ∧ s.owed p.client = []) := by
  cases h with
  | attending hat h =>
    obtain ⟨c, hholds, -, -, haccount⟩ := h.account
    obtain rfl := Net.Listener.At.served_of_holds hholds hat
    rw [hat.collectable_of_accept, Server.owed_of_turn hat.turn_of_accept, List.nil_append]
    exact ⟨haccount.kept, fun _ hfree => ⟨rfl, h.outbox_eq hfree⟩⟩
  | doomed hat _ _ haccount =>
    rw [hat.collectable_of_accept, Server.owed_of_turn hat.turn_of_accept, List.nil_append]
    exact ⟨haccount.kept.weaken (by decide), fun hopen => nomatch hopen⟩
  | left hparted hkept hnothing =>
    rw [hparted.collectable_eq, Server.owed_of_not_turn hparted.turn_ne, List.append_nil]
    exact ⟨hkept, fun hopen hfree => ⟨hnothing hopen hfree, rfl⟩⟩

/-- With what is left of a cut request first, a session shows the levels of its own requests, and
its client collects the replies to them. -/
theorem Opening.Attends.replies {o : Opening} {made : Net.Connection} {limited : Bool}
    {dropped : List UInt8} {seen : List Observation} {s : Server}
    (h : o.Attends made limited dropped seen s) (hleading : o.Leading) :
    let own := requests made.incoming.flatten
    let collected := s.listener.collectable made.client
    (waveforms o.found o.cut).take o.current.length ++ levelsOf seen <+:
        waveforms o.found (o.cut ++ own) ∧
      ∃ answers, RepliesTo (capturing (o.cut ++ own) (o.current ++ tdosOf seen)) answers ∧
        collected <+: answers ∧
        (made.reset = false →
          collected ++ (dropped ++ s.owed made.client) = answers ∧
            (limited = false → collected = answers)) := by
  intro own collected
  obtain ⟨hkept, hnothing⟩ := h.visit.kept
  have hrequests : requests (o.past made limited seen).bytes = o.cut ++ own :=
    (hleading made.incoming.flatten).requests_eq
  have hlevels := hkept.levels_le []
  have hwritten := hkept.written_le []
  rw [List.append_nil, hrequests] at hlevels hwritten
  refine ⟨hlevels, _, repliesTo_encode _ _, (List.prefix_append _ _).trans hwritten,
    fun hreset => ?_⟩
  have hall := hkept.written_eq (by rw [hreset]; rfl) []
  rw [List.append_nil, hrequests] at hall
  refine ⟨hall, fun hfree => ?_⟩
  obtain ⟨hdropped, howed⟩ := hnothing hreset hfree
  rwa [hdropped, howed, List.append_nil, List.append_nil] at hall

/-- Sessions are isolated from each other but for a request that the server has cut.  A session
finds nothing of those before it but the lines, unless the server closed one of them in the middle
of a request that no step has finished since.  With what is left of that request first, the levels
after the active steps of a session are those of the requests that its own client has sent, and the
other steps leave the lines alone.  What the client collects is the replies to them in their order.
Unless the client has reset its connection, they are missing only what the server dropped when it
closed the session or has not written yet, and that is nothing if every write took all its bytes. -/
theorem sessions_isolated_but_for_cut {earlier during : List Event}
    (honce : (Net.connects (actionsOf (earlier ++ during))).Nodup)
    (hvacant : ((Server.listen interface true).run earlier).connected = false)
    (hturn : ((Server.listen interface true).run earlier).listener.turn = some client) :
    let start := (Server.listen interface true).run earlier
    let final := start.run during
    let actions := actionsOf (earlier ++ during)
    let seen := start.sights client during
    let own := requests (Net.sent (Net.Connection.made client actions))
    let collected := final.listener.collectable client
    start.inbox = [] ∧ start.outbox = [] ∧
      ∃ cut found current, Leftover start.shifter cut found current ∧
        (cut ≠ [] ↔ ∃ before after, earlier = before ++ .close :: after ∧
          ((Server.listen interface true).run before).connected = true ∧
          ((Server.listen interface true).run before).shifter.busy = true ∧
          ((Server.listen interface true).run before).shifter = start.shifter) ∧
        (waveforms found cut).take current.length ++ levelsOf seen <+:
          waveforms found (cut ++ own) ∧
        (∀ o ∈ seen, o.active = false → o.after = o.before) ∧
        ∃ answers, RepliesTo (capturing (cut ++ own) (current ++ tdosOf seen)) answers ∧
          collected <+: answers ∧
          (.abort client ∉ actions →
            collected ++ (start.dropped client during ++ final.owed client) = answers ∧
              (Net.limits client actions = false → collected = answers)) := by
  intro start final actions seen own collected
  have hsound : start.Sound := Server.sound_run interface earlier
  obtain ⟨hinbox, houtbox⟩ := hsound.empty (.inl hvacant)
  obtain ⟨cut, found, current, hleft⟩ := hsound.traceable
  have hcut : cut ≠ [] ↔ start.shifter.busy = true := by
    rw [Ne, hleft.eq_nil_iff, Bool.not_eq_false]
  have honce' := honce
  rw [actionsOf_append] at honce'
  obtain ⟨o, rfl, rfl, rfl, hleading, c, hc, hclient, hstarts⟩ :=
    attends_next (Net.nodup_connects_left honce') hvacant hturn hleft
  obtain ⟨made, hmade, rfl, hattends⟩ := hstarts.run hc hclient honce
  rw [Server.run_append] at hattends
  have hown : own = requests made.incoming.flatten := by
    show requests (Net.sent (Net.Connection.made made.client actions)) = _
    rw [hmade]
    rfl
  rw [hown]
  obtain ⟨hlevels, answers, hanswers, hcollected, hall⟩ := hattends.replies hleading
  exact ⟨hinbox, houtbox, o.cut, o.found, o.current, hleft,
    hcut.trans (Server.busy_iff_cut hvacant), hlevels, hattends.still, answers, hanswers,
    hcollected, fun hnever => hall (Net.Connection.made_reset hnever hmade)⟩

end Run

/-- The reply to a scan of one bit of which the high phase is left. -/
theorem Leftover.repliesTo_last {shifter : Shifter} {cut : List Transfer} {found : Lines}
    {current : List Bool} (h : Leftover shifter cut found current) (tdo : Bool) {reply : List UInt8}
    (hmidway : shifter.transfer.map (fun t => (t.captures, t.bit, t.low, t.total)) =
      some (true, 0, true, 1))
    (hreply : shifter.transfer.map (fun t => (t.record.filled [tdo]).encode) = some reply) :
    RepliesTo (capturing cut (current ++ [tdo])) reply := by
  cases h with
  | nothing hnothing =>
    rw [hnothing] at hmidway
    cases hmidway
  | @rest t _ _ _ _ hshifter =>
    rw [hshifter, Option.map_some, Option.some.injEq, Prod.mk.injEq, Prod.mk.injEq,
      Prod.mk.injEq] at hmidway
    rw [hshifter, Option.map_some, Option.some.injEq] at hreply
    obtain ⟨hafter, hbit, hlow, htotal⟩ := hmidway
    have hcaptures : t.captures = true := hafter
    have hsteps : t.steps = 2 := congrArg (fun n => max (2 * n) 1) htotal
    have hone : current.length = 1 := by
      have hhalf : current.length / 2 = 0 := hbit
      have hodd : (current.length % 2 == 1) = true := hlow
      rw [beq_iff_eq] at hodd
      omega
    obtain ⟨level, rfl⟩ := List.length_eq_one_iff.mp hone
    have hcapturing : capturing [t] ([level] ++ [tdo]) = [(t, [tdo])] := by
      simp [capturing, hsteps, hcaptures, highPhases]
    have hrecord : (t.after [level]).record = t.record.filled [] := t.captured_eq hcaptures [level]
    rw [hcapturing]
    refine repliesTo_of_filled _ _ ?_
    rw [List.flatMap_singleton, ← hreply, hrecord]
    simp only [Record.filled]

/-- A client asks for a scan of one bit, which the server cuts after the low phase, and another one
is next. -/
def cutScan : List Event :=
  [.client (.connect 1), .client (.send 1 ([2, 0, 0, 0, 1] ++ List.replicate 1023 0 ++
    [1, 0, 0, 0, 1, 0, 0, 0])), .step 0 false, .close, .client (.connect 2)]

/-- A client that sends nothing sees the rest of a scan and gets the reply. -/
theorem sessions_isolated_but_for_cut_cutScan :
    let start := (Server.listen .loopback true).run cutScan
    let during := [Event.step 1 true, .step 2 true]
    let reply : List UInt8 := [2, 0, 0, 0] ++ (1 :: List.replicate 511 0) ++
      (1 :: List.replicate 511 0) ++ [1, 0, 0, 0] ++ [1, 0, 0, 0]
    ((Net.connects (actionsOf (cutScan ++ during))).Nodup ∧ start.connected = false ∧
      start.listener.turn = some 2) ∧
    Net.sent (Net.Connection.made 2 (actionsOf (cutScan ++ during))) = [] ∧
      start.lines = ⟨false, false, true⟩ ∧
      levelsOf (start.sights 2 during) = [⟨true, false, true⟩] ∧
      (start.run during).listener.collectable 2 = reply ∧
      ∃ cut found current, Leftover start.shifter cut found current ∧ cut ≠ [] ∧
        RepliesTo (capturing cut (current ++ [true])) reply := by
  intro start during reply
  have honce : (Net.connects (actionsOf (cutScan ++ during))).Nodup := by decide +kernel
  have hvacant : start.connected = false := by decide +kernel
  have hturn : start.listener.turn = some 2 := by decide +kernel
  have hnever : .abort 2 ∉ actionsOf (cutScan ++ during) := by decide +kernel
  have hfree : Net.limits 2 (actionsOf (cutScan ++ during)) = false := by decide +kernel
  have hsent : Net.sent (Net.Connection.made 2 (actionsOf (cutScan ++ during))) = [] := by
    decide +kernel
  have hlines : start.lines = ⟨false, false, true⟩ := by decide +kernel
  have hlevels : levelsOf (start.sights 2 during) = [⟨true, false, true⟩] := by decide +kernel
  have htdos : tdosOf (start.sights 2 during) = [true] := by decide +kernel
  have hnone : requests [] = [] := by decide +kernel
  have hbusy : start.shifter.busy = true := by decide +kernel
  have hmidway : start.shifter.transfer.map (fun t => (t.captures, t.bit, t.low, t.total)) =
      some (true, 0, true, 1) := by
    decide +kernel
  have hfilled : start.shifter.transfer.map (fun t => (t.record.filled [true]).encode) =
      some reply := by
    simp only [Record.filled, Buffer.ofLevels, Buffer.ofBytes_nil]
    decide +kernel
  obtain ⟨-, -, cut, found, current, hleft, -, -, -, answers, hanswers, -, hcollected⟩ :=
    sessions_isolated_but_for_cut honce hvacant hturn
  have hall : (start.run during).listener.collectable 2 = answers := (hcollected hnever).2 hfree
  rw [hsent, hnone, List.append_nil, htdos, ← hall] at hanswers
  have hcut : cut ≠ [] := fun hnil =>
    Bool.false_ne_true ((hleft.eq_nil_iff.mp hnil).symm.trans hbusy)
  have hleft : Leftover start.shifter cut found current := hleft
  clear_value start
  have hreply : RepliesTo (capturing cut (current ++ [true])) reply :=
    hleft.repliesTo_last true hmidway hfilled
  exact ⟨⟨honce, hvacant, hturn⟩, hsent, hlines, hlevels,
    hanswers.unique hreply, cut, found, current, hleft, hcut, hreply⟩

end PinBench.Jtag
