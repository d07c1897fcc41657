import Mathlib.Data.List.Induction
import Mathlib.Data.List.Nodup
import PinBench.Proofs.Net.OneClient

/-! A listener with many clients, each of which connects once.  A `Stage` says where one client
stands: it waits, is served, or has been let go of.  Whatever the clients do and however the server
deals with the one it serves, every client goes through these stages in this order, and its
connection stays as its own actions have `made` it. -/

namespace PinBench.Net

def ClientAction.client : ClientAction → Nat
  | .connect client => client
  | .send client _ => client
  | .close client => client
  | .abort client => client
  | .limit client _ => client

/-- The bytes that an action makes a client send. -/
def ClientAction.bytesOf (client : Nat) : ClientAction → List UInt8
  | .send other bytes => if other = client then bytes else []
  | _ => []

/-- What an action of a client does to its connection.  Connecting makes a new one. -/
def ClientAction.effect : ClientAction → Option (Connection → Connection)
  | .connect _ => none
  | .send _ bytes => some (·.send bytes)
  | .close _ => some .finish
  | .abort _ => some .abort
  | .limit _ room => some (·.limit room)

/-- Whether an action leaves a client's connection with only so much room. -/
def ClientAction.limits (client : Nat) : ClientAction → Bool
  | .limit other room => other == client && room.isSome
  | _ => false

/-- Whether some action leaves a client's connection with only so much room.  If none does, every
write to the client takes all its bytes. -/
def limits (client : Nat) (actions : List ClientAction) : Bool :=
  actions.any (·.limits client)

/-- The clients that connect with some actions. -/
def connects (actions : List ClientAction) : List Nat :=
  actions.filterMap fun
    | .connect client => some client
    | _ => none

namespace Connection

/-- What an action makes of the connection of a client, which may not have connected yet. -/
def follow (client : Nat) (c : Option Connection) (action : ClientAction) : Option Connection :=
  if action.client = client then
    match action.effect with
    | none => some (.fresh client)
    | some f => c.map f
  else c

/-- What an action that is no connect makes of a client's connection. -/
def heed (client : Nat) (c : Connection) (action : ClientAction) : Connection :=
  if action.client = client then (action.effect.map (· c)).getD c else c

/-- The connection of a client as some actions have made it, with everything unread. -/
def made (client : Nat) (actions : List ClientAction) : Option Connection :=
  actions.foldl (follow client) none

/-- The client's side is the same. -/
structure SameEnd (c c' : Connection) : Prop where
  client_eq : c'.client = c.client
  ended_eq : c'.ended = c.ended
  reset_eq : c'.reset = c.reset
  /-- A connection that never blocks does not begin to. -/
  free : c.room = none → c'.room = none

theorem SameEnd.refl (c : Connection) : SameEnd c c := ⟨rfl, rfl, rfl, id⟩

theorem SameEnd.trans {c₁ c₂ c₃ : Connection} (h : SameEnd c₁ c₂) (h' : SameEnd c₂ c₃) :
    SameEnd c₁ c₃ :=
  ⟨h'.client_eq.trans h.client_eq, h'.ended_eq.trans h.ended_eq, h'.reset_eq.trans h.reset_eq,
    fun hfree => h'.free (h.free hfree)⟩

theorem SameEnd.close (c : Connection) : SameEnd c c.close := ⟨rfl, rfl, rfl, id⟩

theorem Writes.sameEnd {c c' : Connection} {bytes left : List UInt8} (h : c.Writes bytes c' left) :
    c.SameEnd c' := ⟨h.client_eq, h.ended_eq, h.reset_eq, fun hfree => (h.free hfree).1⟩

theorem write?_reset {c : Connection} (hreset : c.reset = true) (bytes : List UInt8) :
    c.write? bytes = none := by
  simp [write?, hreset]

end Connection

namespace ClientAction

variable {action : ClientAction} {f : Connection → Connection}

theorem client_of_effect (heffect : action.effect = some f) (c : Connection) :
    (f c).client = c.client := by
  cases action <;> simp only [effect, Option.some.injEq, reduceCtorEq] at heffect <;>
    subst heffect <;> rfl

theorem sameEnd_of_effect (heffect : action.effect = some f) {c c' : Connection}
    (hsame : c.SameEnd c') : (f c).SameEnd (f c') := by
  obtain ⟨hclient, hended, hreset, hfree⟩ := hsame
  cases action <;> simp only [effect, Option.some.injEq, reduceCtorEq] at heffect <;>
    subst heffect
  · exact ⟨hclient, hended, hreset, hfree⟩
  · exact ⟨hclient, rfl, hreset, hfree⟩
  · exact ⟨hclient, hended, rfl, hfree⟩
  · exact ⟨hclient, hended, hreset, id⟩

theorem outgoing_of_effect (heffect : action.effect = some f) (c : Connection) :
    (f c).outgoing = c.outgoing := by
  cases action <;> simp only [effect, Option.some.injEq, reduceCtorEq] at heffect <;>
    subst heffect <;> rfl

theorem incoming_of_effect (heffect : action.effect = some f) (c : Connection) :
    (f c).incoming.flatten = c.incoming.flatten ++ action.bytesOf action.client := by
  cases action <;> simp only [effect, Option.some.injEq, reduceCtorEq] at heffect <;>
    subst heffect
  · simp [Connection.send, bytesOf, client]
  · simp [Connection.finish, bytesOf]
  · simp [Connection.abort, bytesOf]
  · simp [Connection.limit, bytesOf]

theorem bytesOf_of_ne {client : Nat} (hne : action.client ≠ client) :
    action.bytesOf client = [] := by
  cases action with
  | send other bytes => exact if_neg hne
  | connect | close | abort | limit => rfl

theorem effect_isSome {client : Nat} (hown : action.client = client)
    (hold : action ≠ .connect client) : ∃ f, action.effect = some f := by
  cases action with
  | connect other => exact absurd (congrArg ClientAction.connect hown) hold
  | send | close | abort | limit => exact ⟨_, rfl⟩

end ClientAction

namespace Connection

variable {client : Nat} {action : ClientAction}

theorem follow_some (hold : action ≠ .connect client) (c : Connection) :
    follow client (some c) action = some (c.heed client action) := by
  unfold follow heed
  split
  · rename_i hown
    obtain ⟨f, hf⟩ := ClientAction.effect_isSome hown hold
    rw [hf]
    rfl
  · rfl

/-- The client goes on with the connection that it has made. -/
theorem made_concat {actions : List ClientAction} {c : Connection}
    (hmade : made client actions = some c) (hold : action ≠ .connect client) :
    made client (actions ++ [action]) = some (c.heed client action) := by
  rw [made, List.foldl_concat, ← made, hmade]
  exact follow_some hold c

/-- What a new connection has, and every action of the client keeps, the client's connection has. -/
theorem made_induction {P : Connection → Prop} {actions : List ClientAction}
    (hfresh : P (.fresh client))
    (hkeep : ∀ action ∈ actions, action.client = client → ∀ f, action.effect = some f →
      ∀ c, P c → P (f c))
    {c : Connection} (hmade : made client actions = some c) : P c := by
  induction actions using List.reverseRecOn generalizing c with
  | nil => cases hmade
  | append_singleton actions action ih =>
    have hbefore := @ih fun a ha => hkeep a (List.mem_append_left _ ha)
    rw [made, List.foldl_concat, ← made, follow] at hmade
    split at hmade
    · rename_i hown
      cases heffect : action.effect with
      | none =>
        rw [heffect] at hmade
        obtain rfl := Option.some.inj hmade
        exact hfresh
      | some f =>
        rw [heffect] at hmade
        obtain ⟨c', hc', rfl⟩ := Option.map_eq_some_iff.mp hmade
        exact hkeep action (by simp) hown f heffect c' (hbefore hc')
    · exact hbefore hmade

theorem made_outgoing {actions : List ClientAction} {c : Connection}
    (hmade : made client actions = some c) : c.outgoing = #[] :=
  made_induction (P := fun c => c.outgoing = #[]) rfl
    (fun _ _ _ _ heffect c hc => (ClientAction.outgoing_of_effect heffect c).trans hc) hmade

theorem made_ended {actions : List ClientAction} (hnever : .close client ∉ actions) {c : Connection}
    (hmade : made client actions = some c) : c.ended = false := by
  refine made_induction (P := fun c => c.ended = false) rfl ?_ hmade
  intro action haction hown f heffect c hc
  cases action with
  | close other =>
    obtain rfl : other = client := hown
    exact absurd haction hnever
  | connect | send | abort | limit =>
    simp only [ClientAction.effect, Option.some.injEq, reduceCtorEq] at heffect <;> subst heffect <;>
      exact hc

theorem made_reset {actions : List ClientAction} (hnever : .abort client ∉ actions) {c : Connection}
    (hmade : made client actions = some c) : c.reset = false := by
  refine made_induction (P := fun c => c.reset = false) rfl ?_ hmade
  intro action haction hown f heffect c hc
  cases action with
  | abort other =>
    obtain rfl : other = client := hown
    exact absurd haction hnever
  | connect | send | close | limit =>
    simp only [ClientAction.effect, Option.some.injEq, reduceCtorEq] at heffect <;> subst heffect <;>
      exact hc

theorem made_room {actions : List ClientAction} (hfree : limits client actions = false)
    {c : Connection} (hmade : made client actions = some c) : c.room = none := by
  refine made_induction (P := fun c => c.room = none) rfl ?_ hmade
  intro action haction hown f heffect c hc
  have hlimits : action.limits client = false :=
    Bool.not_eq_true _ ▸ List.any_eq_false.mp hfree action haction
  cases action with
  | limit other room =>
    obtain rfl : other = client := hown
    simp only [ClientAction.effect, Option.some.injEq] at heffect
    subst heffect
    simpa [ClientAction.limits, Connection.limit] using hlimits
  | connect | send | close | abort =>
    simp only [ClientAction.effect, Option.some.injEq, reduceCtorEq] at heffect <;> subst heffect <;>
      exact hc

theorem heed_outgoing (c : Connection) : (c.heed client action).outgoing = c.outgoing := by
  unfold heed
  split
  · cases heffect : action.effect with
    | none => rfl
    | some f => exact ClientAction.outgoing_of_effect heffect c
  · rfl

theorem heed_client (c : Connection) : (c.heed client action).client = c.client := by
  unfold heed
  split
  · cases heffect : action.effect with
    | none => rfl
    | some f => exact ClientAction.client_of_effect heffect c
  · rfl

theorem heed_reset (c : Connection) :
    (c.heed client action).reset = (c.reset || decide (action = .abort client)) := by
  unfold heed
  split
  · rename_i hown
    subst hown
    cases action <;> simp [ClientAction.effect, ClientAction.client, Connection.send,
      Connection.finish, Connection.abort, Connection.limit]
  · rename_i hother
    have hne : action ≠ .abort client := by
      rintro rfl
      exact hother rfl
    simp [hne]

/-- A connection that never blocks does not begin to unless its client makes it. -/
theorem heed_room {c : Connection} (hroom : c.room = none) (hfree : action.limits client = false) :
    (c.heed client action).room = none := by
  unfold heed
  split
  · rename_i hown
    cases action with
    | limit other room =>
      obtain rfl : other = client := hown
      simpa [ClientAction.effect, ClientAction.limits, Connection.limit] using hfree
    | connect | send | close | abort => exact hroom
  · exact hroom

/-- A client that has ended its stream does not go on with it. -/
theorem heed_ended {c : Connection} (hended : c.ended = true) :
    (c.heed client action).ended = true := by
  unfold heed
  split
  · cases action <;> simp [ClientAction.effect, hended, Connection.send, Connection.finish,
      Connection.abort, Connection.limit]
  · exact hended

theorem heed_incoming (c : Connection) (hold : action ≠ .connect client) :
    (c.heed client action).incoming.flatten = c.incoming.flatten ++ action.bytesOf client := by
  unfold heed
  split
  · rename_i hown
    obtain ⟨f, hf⟩ := ClientAction.effect_isSome hown hold
    subst hown
    rw [hf]
    exact ClientAction.incoming_of_effect hf c
  · rename_i hother
    rw [ClientAction.bytesOf_of_ne hother, List.append_nil]

theorem SameEnd.heed {c c' : Connection} (h : c.SameEnd c') :
    (c.heed client action).SameEnd (c'.heed client action) := by
  unfold Connection.heed
  split
  · cases heffect : action.effect with
    | none => exact h
    | some f => exact ClientAction.sameEnd_of_effect heffect h
  · exact h

end Connection

theorem Connection.made_eq_none {client : Nat} {actions : List ClientAction}
    (hnew : client ∉ connects actions) : made client actions = none := by
  induction actions using List.reverseRecOn with
  | nil => rfl
  | append_singleton actions action ih =>
    rw [connects, List.filterMap_append, List.mem_append, not_or] at hnew
    rw [made, List.foldl_concat, ← made, ih hnew.1, follow]
    split
    · rename_i hown
      cases action with
      | connect other =>
        have hother : other = client := hown
        exact absurd (by simp [hother]) hnew.2
      | send | close | abort | limit => rfl
    · rfl

theorem nodup_connects_left {earlier later : List ClientAction}
    (honce : (connects (earlier ++ later)).Nodup) : (connects earlier).Nodup := by
  rw [connects, List.filterMap_append] at honce
  exact honce.of_append_left

/-- A client that connects once does not connect again. -/
theorem connect_notMem {client : Nat} {earlier later : List ClientAction} {c : Connection}
    (honce : (connects (earlier ++ later)).Nodup)
    (hmade : Connection.made client earlier = some c) : .connect client ∉ later := by
  intro hagain
  rw [connects, List.filterMap_append] at honce
  by_cases hmem : client ∈ connects earlier
  · exact List.disjoint_of_nodup_append honce hmem (List.mem_filterMap.mpr ⟨_, hagain, rfl⟩)
  · rw [Connection.made_eq_none hmem] at hmade
    cases hmade

/-- What a client has sent that has made its connection like this. -/
def sent (made : Option Connection) : List UInt8 := (made.map (·.incoming.flatten)).getD []

/-- Where a client stands with a listener. -/
inductive Stage where
  | absent
  | waiting (c : Connection)
  | served (c : Connection)
  | parted (c : Connection)

namespace Stage

def queue : Stage → List Connection
  | .waiting c => [c]
  | _ => []

def attached : Stage → Option Connection
  | .served c => some c
  | _ => none

def gone : Stage → List Connection
  | .parted c => [c]
  | _ => []

/-- The client's side of its connection changes. -/
def map (f : Connection → Connection) : Stage → Stage
  | .absent => .absent
  | .waiting c => .waiting (f c)
  | .served c => .served (f c)
  | .parted c => .parted (f c)

/-- The client does something. -/
def meet (client : Nat) (stage : Stage) (action : ClientAction) : Stage :=
  if action.client = client then
    match action.effect with
    | none => .waiting (.fresh client)
    | some f => stage.map f
  else stage

/-- The bytes that the client would collect. -/
def written : Stage → List UInt8
  | .absent => []
  | .waiting c => c.outgoing.toList
  | .served c => c.outgoing.toList
  | .parted c => c.outgoing.toList

/-- The connection is as the client has made it, untouched until the client is served. -/
def AsMade : Stage → Option Connection → Prop
  | .absent, m => m = none
  | .waiting c, m => m = some c
  | .served c, m => ∃ c₀, m = some c₀ ∧ c₀.SameEnd c
  | .parted c, m => ∃ c₀, m = some c₀ ∧ c₀.SameEnd c

theorem AsMade.meet {stage : Stage} {m : Option Connection} (h : stage.AsMade m) (client : Nat)
    (action : ClientAction) : (stage.meet client action).AsMade
      (Connection.follow client m action) := by
  unfold Stage.meet Connection.follow
  split
  · cases heffect : action.effect with
    | none => rfl
    | some f =>
      have hsame := @ClientAction.sameEnd_of_effect action f heffect
      cases stage with
      | absent | waiting =>
        obtain rfl := h
        rfl
      | served c | parted c =>
        obtain ⟨c₀, rfl, hc₀⟩ := h
        exact ⟨f c₀, rfl, hsame hc₀⟩
  · exact h

theorem meet_eq_map {client : Nat} {action : ClientAction} (hold : action ≠ .connect client)
    (stage : Stage) : stage.meet client action = stage.map (·.heed client action) := by
  unfold Stage.meet
  split
  · rename_i hown
    obtain ⟨f, hf⟩ := ClientAction.effect_isSome hown hold
    rw [hf]
    cases stage <;> simp [Stage.map, Connection.heed, hown, hf]
  · rename_i hother
    cases stage <;> simp [Stage.map, Connection.heed, hother]

end Stage

namespace Listener

/-- The listener after an action of a client.  One that fails changes nothing. -/
def meet (l : Listener) (action : ClientAction) : Listener :=
  match l.act action with
  | .ok l => l
  | .error _ => l

/-- The connections of a client are those of a stage. -/
structure At (l : Listener) (client : Nat) (stage : Stage) : Prop where
  queue_eq : l.queue.filter (·.client == client) = stage.queue
  attached_eq : l.attached.filter (·.client == client) = stage.attached
  parted_eq : l.parted.filter (·.client == client) = stage.gone

/-- The next client to be served, or the one that is being served. -/
def turn (l : Listener) : Option Nat := l.accept.attached.map (·.client)

variable {l l' : Listener} {client : Nat} {stage : Stage} {c : Connection}

theorem at_start (interface : Interface) (reachable : Bool) (client : Nat) :
    (listen interface reachable).At client .absent :=
  ⟨rfl, rfl, rfl⟩

namespace At

theorem client_of_served (h : l.At client (.served c)) :
    l.attached = some c ∧ c.client = client := by
  have := h.attached_eq
  cases hattached : l.attached with
  | none => simp [hattached, Stage.attached] at this
  | some c' =>
    simp only [hattached, Stage.attached, Option.filter_eq_some_iff, Option.some.injEq,
      beq_iff_eq] at this
    exact ⟨congrArg some this.1, this.2⟩

/-- Only the client that is served has the attached connection. -/
theorem attached_ne (h : l.At client stage) (hstage : stage.attached = none)
    (hattached : l.attached = some c) : c.client ≠ client := by
  have := h.attached_eq
  rw [hstage, hattached, Option.filter_eq_none_iff] at this
  simpa using this

theorem connections_eq (h : l.At client stage) :
    l.connections.filter (·.client == client) =
      stage.queue ++ stage.attached.toList ++ stage.gone := by
  rw [connections, List.filter_append, List.filter_append, h.queue_eq, h.parted_eq]
  congr 2
  rw [← h.attached_eq]
  cases l.attached with
  | none => rfl
  | some c => cases hc : c.client == client <;> simp [Option.filter, hc]

theorem find?_eq (h : l.At client stage) :
    l.connections.find? (·.client == client) =
      (stage.queue ++ stage.attached.toList ++ stage.gone).head? := by
  rw [← h.connections_eq, List.head?_filter]

/-- What a client would collect is what was written on its connection. -/
theorem collectable_eq (h : l.At client stage) : l.collectable client = stage.written := by
  have hfind := h.find?_eq
  cases stage with
  | absent =>
    have hnone : l.connections.find? (·.client == client) = none := hfind
    simp [collectable, collect?, hnone, Stage.written]
  | waiting c => exact collectable_of_find? hfind
  | served c => exact collectable_of_find? hfind
  | parted c => exact collectable_of_find? hfind

theorem knows_iff (h : l.At client stage) : l.knows client = true ↔ stage ≠ .absent := by
  have hany : l.knows client = (l.connections.find? (·.client == client)).isSome := by
    rw [knows, Bool.eq_iff_iff, List.any_eq_true, List.find?_isSome]
  rw [hany, h.find?_eq]
  cases stage <;> simp [Stage.queue, Stage.attached, Stage.gone]

end At

/-! ### What clients do -/

section Update

variable {f : Connection → Connection} (hf : ∀ c, (f c).client = c.client) (xs : List Connection)
  (o : Option Connection)
include hf

theorem filter_update_self :
    (xs.map fun c => if c.client = client then f c else c).filter (·.client == client) =
      (xs.filter (·.client == client)).map f := by
  induction xs with
  | nil => rfl
  | cons c rest ih =>
    by_cases hc : c.client = client
    · simp [hc, hf, ih]
    · simp [hc, ih]

theorem filter_update_other {other : Nat} (hne : other ≠ client) :
    (xs.map fun c => if c.client = other then f c else c).filter (·.client == client) =
      xs.filter (·.client == client) := by
  induction xs with
  | nil => rfl
  | cons c rest ih =>
    by_cases hc : c.client = other
    · simp [hc, hf, hne, ih]
    · simp [hc, ih, List.filter_cons]

theorem optionFilter_update_self :
    (o.map fun c => if c.client = client then f c else c).filter (·.client == client) =
      (o.filter (·.client == client)).map f := by
  cases o with
  | none => rfl
  | some c => by_cases hc : c.client = client <;> simp [Option.filter, hc, hf]

theorem optionFilter_update_other {other : Nat} (hne : other ≠ client) :
    (o.map fun c => if c.client = other then f c else c).filter (·.client == client) =
      o.filter (·.client == client) := by
  cases o with
  | none => rfl
  | some c => by_cases hc : c.client = other <;> simp [Option.filter, hc, hf, hne]

theorem At.update_self (h : l.At client stage) : (l.update client f).At client (stage.map f) := by
  refine ⟨?_, ?_, ?_⟩
  · refine (filter_update_self hf l.queue).trans ?_
    rw [h.queue_eq]
    cases stage <;> rfl
  · refine (optionFilter_update_self hf l.attached).trans ?_
    rw [h.attached_eq]
    cases stage <;> rfl
  · refine (filter_update_self hf l.parted).trans ?_
    rw [h.parted_eq]
    cases stage <;> rfl

theorem At.update_other (h : l.At client stage) {other : Nat} (hne : other ≠ client) :
    (l.update other f).At client stage := by
  refine ⟨?_, ?_, ?_⟩
  · rw [← h.queue_eq]
    exact filter_update_other hf l.queue hne
  · rw [← h.attached_eq]
    exact optionFilter_update_other hf l.attached hne
  · rw [← h.parted_eq]
    exact filter_update_other hf l.parted hne

end Update

theorem meet_connect (hreachable : l.reachable = true) (client : Nat) :
    l.meet (.connect client) = { l with queue := l.queue ++ [.fresh client] } := by
  simp [meet, act, hreachable]

theorem meet_of_effect {action : ClientAction} {f : Connection → Connection}
    (heffect : action.effect = some f) :
    l.meet action = if l.knows action.client then l.update action.client f else l := by
  cases action with
  | connect client => cases heffect
  | send client bytes | close client | abort client | limit client room =>
    simp only [ClientAction.effect, Option.some.injEq] at heffect
    subst heffect
    cases hknown : l.knows client <;> simp [meet, act, act.known, hknown, ClientAction.client]

theorem reachable_meet (hreachable : l.reachable = true) (action : ClientAction) :
    (l.meet action).reachable = true := by
  cases heffect : action.effect with
  | some f =>
    rw [meet_of_effect heffect]
    split <;> exact hreachable
  | none =>
    cases action with
    | send | close | abort | limit => cases heffect
    | connect client =>
      rw [meet_connect hreachable]
      exact hreachable

/-- No client changes whether one is served. -/
theorem connected_meet (l : Listener) (action : ClientAction) :
    (l.meet action).connected = l.connected := by
  cases heffect : action.effect with
  | some f =>
    rw [meet_of_effect heffect]
    split <;> simp [connected, Listener.update]
  | none =>
    cases action with
    | send | close | abort | limit => cases heffect
    | connect client => cases hreachable : l.reachable <;> simp [meet, act, hreachable, connected]

theorem At.known_other {f : Connection → Connection} (hf : ∀ c, (f c).client = c.client)
    (h : l.At client stage) {other : Nat} (hne : other ≠ client) :
    (if l.knows other then l.update other f else l).At client stage := by
  split
  · exact h.update_other hf hne
  · exact h

theorem At.known_self {f : Connection → Connection} (hf : ∀ c, (f c).client = c.client)
    (h : l.At client stage) :
    (if l.knows client then l.update client f else l).At client (stage.map f) := by
  split
  · exact h.update_self hf
  · rename_i hunknown
    have habsent : stage = .absent := by
      by_contra hne
      exact hunknown (h.knows_iff.mpr hne)
    subst habsent
    exact h

/-- Others do not change where a client stands, and it connects at most once. -/
theorem At.meet (h : l.At client stage) (hreachable : l.reachable = true) {action : ClientAction}
    (honce : action = .connect client → stage = .absent) :
    (l.meet action).At client (stage.meet client action) := by
  unfold Stage.meet
  cases heffect : action.effect with
  | some f =>
    have hf := ClientAction.client_of_effect heffect
    rw [meet_of_effect heffect]
    by_cases hown : action.client = client
    · rw [if_pos hown, hown]
      exact h.known_self hf
    · rw [if_neg hown]
      exact h.known_other hf hown
  | none =>
    cases action with
    | send | close | abort | limit => cases heffect
    | connect other =>
      rw [meet_connect hreachable]
      by_cases hown : other = client
      · subst hown
        obtain rfl := honce rfl
        rw [if_pos (show (ClientAction.connect other).client = other from rfl)]
        refine ⟨?_, h.attached_eq, h.parted_eq⟩
        rw [List.filter_append, h.queue_eq]
        simp [Stage.queue, Connection.fresh]
      · rw [if_neg (show ¬(ClientAction.connect other).client = client from hown)]
        refine ⟨?_, h.attached_eq, h.parted_eq⟩
        rw [List.filter_append, h.queue_eq]
        simp [Connection.fresh, hown]

/-! ### What the server does -/

theorem accept_of_attached (hattached : l.attached = some c) : l.accept = l := by
  simp [Listener.accept, hattached]

theorem reachable_accept (l : Listener) : l.accept.reachable = l.reachable := by
  unfold Listener.accept
  split <;> rfl

/-- Whose turn it is decides what an accept makes of a client's stage. -/
theorem At.accept_of_turn (h : l.At client stage) (hturn : l.turn = some client) :
    ∃ c, (stage = .served c ∨ stage = .waiting c ∧ l.attached = none) ∧
      l.accept.At client (.served c) := by
  cases hattached : l.attached with
  | some c =>
    rw [turn, accept_of_attached hattached, hattached] at hturn
    have hc : c.client = client := Option.some.inj hturn
    have hstage := h.attached_eq
    rw [hattached] at hstage
    cases stage with
    | served c' =>
      rw [accept_of_attached hattached]
      exact ⟨c', .inl rfl, h⟩
    | absent | waiting | parted => simp [Stage.attached, Option.filter, hc] at hstage
  | none =>
    cases hqueue : l.queue with
    | nil => simp [turn, Listener.accept, hattached, hqueue] at hturn
    | cons c rest =>
      have hc : c.client = client := by
        simpa [turn, Listener.accept, hattached, hqueue] using hturn
      have haccept : l.accept = { l with attached := some c, queue := rest } := by
        simp [Listener.accept, hattached, hqueue]
      have hstage := h.queue_eq
      rw [hqueue, List.filter_cons_of_pos (by simpa using hc)] at hstage
      cases stage with
      | waiting c' =>
        obtain ⟨rfl, hrest⟩ := List.cons.inj hstage
        rw [haccept]
        refine ⟨c, .inr ⟨rfl, rfl⟩, hrest, ?_, h.parted_eq⟩
        simp [Stage.attached, Option.filter, hc]
      | absent | served | parted => cases hstage

theorem At.accept_of_not_turn (h : l.At client stage) (hturn : l.turn ≠ some client) :
    l.accept.At client stage ∧ stage.attached = none := by
  cases hattached : l.attached with
  | some c =>
    rw [turn, accept_of_attached hattached, hattached] at hturn
    have hc : c.client ≠ client := fun hc => hturn (congrArg some hc)
    refine ⟨by rwa [accept_of_attached hattached], ?_⟩
    rw [← h.attached_eq, hattached]
    simp [Option.filter, hc]
  | none =>
    have hnone : stage.attached = none := by
      rw [← h.attached_eq, hattached]
      rfl
    refine ⟨?_, hnone⟩
    cases hqueue : l.queue with
    | nil => rwa [show l.accept = l by simp [Listener.accept, hattached, hqueue]]
    | cons c rest =>
      have hc : c.client ≠ client := by
        simpa [turn, Listener.accept, hattached, hqueue] using hturn
      have haccept : l.accept = { l with attached := some c, queue := rest } := by
        simp [Listener.accept, hattached, hqueue]
      rw [haccept]
      refine ⟨?_, ?_, h.parted_eq⟩
      · rw [← h.queue_eq, hqueue, List.filter_cons_of_neg (by simpa using hc)]
      · rw [hnone]
        simp [Option.filter, hc]

theorem accept_accept (l : Listener) : l.accept.accept = l.accept := by
  cases hattached : l.accept.attached with
  | some c => exact accept_of_attached hattached
  | none =>
    have hsame : l.accept = l := by
      unfold Listener.accept at hattached ⊢
      split at hattached <;> simp_all
    rw [hsame, hsame]

theorem knows_accept (l : Listener) (client : Nat) : l.accept.knows client = l.knows client := by
  unfold Listener.accept
  split
  · rename_i c rest hattached hqueue
    simp only [knows, connections, hattached, hqueue, Option.toList_some, Option.toList_none,
      List.any_append, List.any_cons, List.any_nil, Bool.or_false]
    rw [Bool.or_comm (rest.any _)]
  · rfl

/-- As long as it is someone's turn, it does not matter whether the server accepts before or after
the next action of a client. -/
theorem accept_meet (hreachable : l.reachable = true) (hturn : l.turn ≠ none)
    (action : ClientAction) : (l.meet action).accept = l.accept.meet action := by
  have hreachable' : l.accept.reachable = true := (reachable_accept l).trans hreachable
  cases hattached : l.attached with
  | some c =>
    obtain ⟨c', hc'⟩ : ∃ c', (l.meet action).attached = some c' := by
      rw [← Option.isSome_iff_exists]
      exact (connected_meet l action).trans (by rw [connected, hattached]; rfl)
    rw [accept_of_attached hattached, accept_of_attached hc']
  | none =>
    cases hqueue : l.queue with
    | nil => simp [turn, Listener.accept, hattached, hqueue] at hturn
    | cons c rest =>
      have haccept : l.accept = { l with attached := some c, queue := rest } := by
        simp [Listener.accept, hattached, hqueue]
      cases heffect : action.effect with
      | some f =>
        rw [meet_of_effect heffect, meet_of_effect heffect, knows_accept]
        split
        · rw [haccept]
          simp [Listener.update, Listener.accept, hattached, hqueue]
        · rfl
      | none =>
        cases action with
        | send | close | abort | limit => cases heffect
        | connect other =>
          rw [meet_connect hreachable, meet_connect hreachable', haccept]
          simp [Listener.accept, hattached, hqueue]

/-- What a server can make of a listener without accepting anyone: it reads and writes on the
connection that it serves, or lets go of it. -/
inductive Tends (l : Listener) : Listener → Prop
  | refl : Tends l l
  | serve {l' : Listener} {c c' : Connection} :
      Tends l l' → l'.attached = some c → c.SameEnd c' → Tends l { l' with attached := some c' }
  | detach {l' : Listener} : Tends l l' → Tends l l'.detach

theorem Tends.trans {l₁ l₂ l₃ : Listener} (h : Tends l₁ l₂) (h' : Tends l₂ l₃) : Tends l₁ l₃ := by
  induction h' with
  | refl => exact h
  | serve _ hattached hsame ih => exact ih.serve hattached hsame
  | detach _ ih => exact ih.detach

theorem Tends.reachable_eq (h : Tends l l') : l'.reachable = l.reachable := by
  induction h with
  | refl => rfl
  | serve _ _ _ ih => exact ih
  | detach _ ih =>
    unfold Listener.detach
    split <;> exact ih

theorem At.serve (h : l.At client (.served c)) {c' : Connection} (hsame : c.SameEnd c') :
    { l with attached := some c' }.At client (.served c') := by
  refine ⟨h.queue_eq, ?_, h.parted_eq⟩
  simp [Stage.attached, Option.filter, hsame.client_eq, h.client_of_served.2]

theorem At.detach (h : l.At client (.served c)) : l.detach.At client (.parted c.close) := by
  obtain ⟨hattached, hc⟩ := h.client_of_served
  have hparted := h.parted_eq
  simp only [Listener.detach, hattached]
  refine ⟨h.queue_eq, rfl, ?_⟩
  rw [List.filter_append, hparted]
  simp [Stage.gone, Connection.close, hc]

/-- A client that is not served sees nothing of what the server does. -/
theorem At.tends (h : l.At client stage) (hstage : stage.attached = none) (htends : Tends l l') :
    l'.At client stage := by
  induction htends with
  | refl => exact h
  | serve _ hattached hsame ih =>
    have hne := ih.attached_ne hstage hattached
    refine ⟨ih.queue_eq, ?_, ih.parted_eq⟩
    rw [hstage]
    simp [Option.filter, hsame.client_eq, hne]
  | @detach l' _ ih =>
    cases hattached : l'.attached with
    | none => rwa [show l'.detach = l' by simp [Listener.detach, hattached]]
    | some c =>
      have hne := ih.attached_ne hstage hattached
      simp only [Listener.detach, hattached]
      refine ⟨ih.queue_eq, ?_, ?_⟩
      · rw [hstage]
        rfl
      · rw [List.filter_append, ih.parted_eq]
        simp [Connection.close, hne]

/-- The client that is served stays so or is let go of. -/
theorem At.tends_served (h : l.At client (.served c)) (htends : Tends l l') :
    ∃ c', c.SameEnd c' ∧ (l'.At client (.served c') ∨ l'.At client (.parted c')) := by
  induction htends with
  | refl => exact ⟨c, .refl c, .inl h⟩
  | @serve l' c₁ c₂ _ hattached hsame ih =>
    obtain ⟨c', hsame', hserved | hparted⟩ := ih
    · obtain rfl := Option.some.inj (hserved.client_of_served.1.symm.trans hattached)
      exact ⟨c₂, hsame'.trans hsame, .inl (hserved.serve hsame)⟩
    · exact ⟨c', hsame', .inr (hparted.tends rfl (Tends.refl.serve hattached hsame))⟩
  | @detach l' _ ih =>
    obtain ⟨c', hsame', hserved | hparted⟩ := ih
    · exact ⟨c'.close, hsame'.trans (.close c'), .inr hserved.detach⟩
    · exact ⟨c', hsame', .inr (hparted.tends rfl Tends.refl.detach)⟩

/-- What clients and a server have made of a listener, with what the clients have done. -/
inductive Became (interface : Interface) : List ClientAction → Listener → Prop
  | start : Became interface [] (listen interface true)
  | meet {actions : List ClientAction} {l : Listener} (action : ClientAction) :
      Became interface actions l → Became interface (actions ++ [action]) (l.meet action)
  | accept {actions : List ClientAction} {l : Listener} :
      Became interface actions l → Became interface actions l.accept
  | tends {actions : List ClientAction} {l l' : Listener} :
      Became interface actions l → Tends l l' → Became interface actions l'

namespace Became

variable {interface : Interface} {actions : List ClientAction}

theorem reachable_eq (h : Became interface actions l) : l.reachable = true := by
  induction h with
  | start => rfl
  | meet action _ ih => exact reachable_meet ih action
  | accept _ ih => rwa [reachable_accept]
  | tends _ htends ih => rwa [htends.reachable_eq]

/-- A client that connects once stands at some stage, with its connection as it has made it. -/
theorem exists_stage (h : Became interface actions l) (honce : (connects actions).Nodup)
    (client : Nat) :
    ∃ stage, l.At client stage ∧ stage.AsMade (Connection.made client actions) := by
  -- A new client is absent, as its id is among the connects only once.
  induction h with
  | start => exact ⟨.absent, at_start interface true client, rfl⟩
  | @meet actions l action h ih =>
    obtain ⟨stage, hat, hmade⟩ := ih (nodup_connects_left honce)
    refine ⟨stage.meet client action, hat.meet h.reachable_eq ?_, ?_⟩
    · rintro rfl
      have hnew : client ∉ connects actions := by
        intro hmem
        rw [connects, List.filterMap_append] at honce
        exact List.disjoint_of_nodup_append honce hmem (by simp)
      rw [Connection.made_eq_none hnew] at hmade
      cases stage with
      | absent => rfl
      | waiting c => cases hmade
      | served c | parted c =>
        obtain ⟨c₀, hnone, -⟩ := hmade
        cases hnone
    · rw [Connection.made, List.foldl_concat]
      exact hmade.meet client action
  | @accept actions l h ih =>
    obtain ⟨stage, hat, hmade⟩ := ih honce
    by_cases hturn : l.turn = some client
    · obtain ⟨c, hstage, hserved⟩ := hat.accept_of_turn hturn
      refine ⟨.served c, hserved, ?_⟩
      rcases hstage with rfl | ⟨rfl, -⟩
      · exact hmade
      · exact ⟨c, hmade, .refl c⟩
    · exact ⟨stage, (hat.accept_of_not_turn hturn).1, hmade⟩
  | @tends actions l l' h htends ih =>
    obtain ⟨stage, hat, hmade⟩ := ih honce
    cases stage with
    | absent | waiting | parted => exact ⟨_, hat.tends rfl htends, hmade⟩
    | served c =>
      obtain ⟨c₀, hc₀, hsame⟩ := hmade
      obtain ⟨c', hsame', hserved | hparted⟩ := hat.tends_served htends
      · exact ⟨.served c', hserved, c₀, hc₀, hsame.trans hsame'⟩
      · exact ⟨.parted c', hparted, c₀, hc₀, hsame.trans hsame'⟩

/-- Whoever is next has an untouched connection. -/
theorem next (h : Became interface actions l) (honce : (connects actions).Nodup)
    (hvacant : l.connected = false) (hturn : l.turn = some client) :
    ∃ c, Connection.made client actions = some c ∧ l.accept.At client (.served c) := by
  obtain ⟨stage, hat, hmade⟩ := h.exists_stage honce client
  obtain ⟨c, rfl | ⟨rfl, -⟩, hserved⟩ := hat.accept_of_turn hturn
  · simp [connected, hat.client_of_served.1] at hvacant
  · exact ⟨c, hmade, hserved⟩

end Became

/-- A client that does not connect again only changes its side of the connection. -/
theorem At.heed (h : l.At client stage) (hreachable : l.reachable = true) {action : ClientAction}
    (hold : action ≠ .connect client) :
    (l.meet action).At client (stage.map (·.heed client action)) := by
  have hmeet := h.meet hreachable (fun heq => absurd heq hold)
  rwa [Stage.meet_eq_map hold] at hmeet

theorem At.turn_of_accept (h : l.accept.At client (.served c)) : l.turn = some client := by
  obtain ⟨hattached, hc⟩ := h.client_of_served
  rw [turn, hattached]
  exact congrArg some hc

theorem At.turn_eq (h : l.At client (.served c)) : l.turn = some client := by
  rw [← accept_of_attached h.client_of_served.1] at h
  exact h.turn_of_accept

/-- A client that is served once the server accepts can collect the same before. -/
theorem At.collectable_of_accept (h : l.accept.At client (.served c)) :
    l.collectable client = c.outgoing.toList := by
  obtain ⟨hattached, hc⟩ := h.client_of_served
  by_cases hsame : l.accept = l
  · rw [hsame] at h
    exact h.collectable_eq
  · unfold Listener.accept at hsame hattached
    split at hsame
    · rename_i c' rest hnone hqueue
      obtain rfl : c' = c := by simpa [hnone, hqueue] using hattached
      exact collectable_of_find? (by simp [connections, hqueue, hc])
    · exact absurd rfl hsame

/-- It is never again the turn of a client that has been let go of. -/
theorem At.turn_ne (h : l.At client (.parted c)) : l.turn ≠ some client := by
  intro hturn
  obtain ⟨c', hstage | ⟨hstage, -⟩, -⟩ := h.accept_of_turn hturn <;> cases hstage

theorem At.parted_tends (h : l.At client (.parted c)) (htends : Tends l.accept l') :
    l'.At client (.parted c) :=
  (h.accept_of_not_turn h.turn_ne).1.tends rfl htends

end Listener

end PinBench.Net
