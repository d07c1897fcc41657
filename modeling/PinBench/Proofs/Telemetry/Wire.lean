import PinBench.Proofs.Json.Reading
import PinBench.Proofs.Telemetry.Calls
import PinBench.Proofs.Telemetry.Encoding
import PinBench.Proofs.Text.Utf8

/-! Messages on the wire.  Every message of either side is one line, and its line is read back as
the message, whatever is in its texts and in whatever order the keys of its objects come.
`messages_roundTrip` has this for one message and for a stream of them, and says that what waits for
an observer is such a stream. -/

namespace PinBench.Telemetry

open Json

variable {M : Type}

/-- The messages in the complete lines of a stream. -/
def messagesOf (read? : List Char → Option M) (bytes : List UInt8) : List (Option M) :=
  (linesOf bytes).map fun line => read? (Utf8.decode line)

/-- A format of messages in lines of JSON.  A message is one line.  It is read back from its line,
and in any other order of its keys, with the end of the line or without it.  A stream of lines is
read back as the messages that it was made of. -/
structure RoundTrips (toJson : M → Json) (line : M → List UInt8) (read? : List Char → Option M) :
    Prop where
  line_eq (m : M) : line m = Utf8.encode (toJson m).print ++ [10]
  one_end (m : M) : 10 ∉ Utf8.encode (toJson m).print
  read_line (m : M) : read? (Utf8.decode (line m)) = some m
  read_reordered (m : M) (j : Json) :
    Reordered (toJson m) j → ∀ ending ∈ [[], [10]],
      read? (Utf8.decode (Utf8.encode j.print ++ ending)) = some m
  read_stream (ms : List M) :
    messagesOf read? (ms.flatMap line) = ms.map some ∧ unfinished (ms.flatMap line) = []

/-- What makes a format: numbers that are numbers, and a reader of JSON that undoes the writer and
passes over the order of keys. -/
theorem roundTrips {toJson : M → Json} {ofJson? : Json → Option M} {line : M → List UInt8}
    {read? : List Char → Option M} (hnumbers : ∀ m, (toJson m).wellFormed isNumber = true)
    (hundo : ∀ m, ofJson? (toJson m) = some m)
    (horder : ∀ {j j'}, Reordered j j' → ofJson? j = ofJson? j')
    (hline : ∀ m, line m = Utf8.encode (toJson m).print ++ [10])
    (hread : ∀ text, read? text = (Json.read? text).bind ofJson?) :
    RoundTrips toJson line read? := by
  have hend (m : M) : 10 ∉ Utf8.encode (toJson m).print := by
    rw [Utf8.mem_encode]
    exact lineFeed_not_mem_print (toJson m) (hnumbers m)
  have hback (m : M) (j : Json) (hj : Reordered (toJson m) j) (ending : List UInt8)
      (hending : ending ∈ [[], [10]]) :
      read? (Utf8.decode (Utf8.encode j.print ++ ending)) = some m := by
    obtain ⟨text, htext, hblank⟩ : ∃ text, Utf8.encode text = ending ∧ ∀ c ∈ text, c ∈ blanks := by
      simp only [List.mem_cons, List.not_mem_nil, or_false] at hending
      rcases hending with rfl | rfl
      · exact ⟨[], rfl, by simp⟩
      · exact ⟨['\n'], rfl, by simp [blanks]⟩
    have hwell : j.wellFormed isNumber = true := by rw [← hj.wellFormed_eq, hnumbers]
    rw [← htext, ← Utf8.encode_append, Utf8.decode_encode, hread, read?_print hwell hblank,
      Option.bind_some, ← horder hj, hundo]
  refine ⟨hline, hend, fun m => ?_, hback, fun ms => ?_⟩
  · rw [hline]
    exact hback m (toJson m) (.refl _) [10] (by simp)
  · -- The stream is cut where its lines were put together.
    have hjoin : ms.flatMap line = joinLines (ms.map fun m => Utf8.encode (toJson m).print) [] := by
      rw [funext hline]
      simp [joinLines, List.flatMap_map]
    have hsplit : splitLines (ms.flatMap line) =
        (ms.map fun m => Utf8.encode (toJson m).print, []) := by
      rw [hjoin]
      exact splitLines_joinLines (List.forall_mem_map.mpr fun m _ => hend m) List.not_mem_nil
    rw [messagesOf, linesOf, unfinished, hsplit, List.map_map]
    refine ⟨List.map_congr_left fun m _ => ?_, rfl⟩
    have h := hback m (toJson m) (.refl _) [] (by simp)
    rwa [List.append_nil] at h

theorem ServerMessage.roundTrips : RoundTrips toJson line read? :=
  Telemetry.roundTrips (wellFormed_toJson admits_isNumber) ofJson?_toJson ofJson?_eq (fun _ => rfl)
    fun _ => rfl

theorem ObserverMessage.roundTrips : RoundTrips toJson line read? :=
  Telemetry.roundTrips (wellFormed_toJson admits_isNumber) ofJson?_toJson ofJson?_eq (fun _ => rfl)
    fun _ => rfl

/-! ### What waits for an observer -/

namespace Server

/-- A message is dropped when there is no observer or too much waits for it. -/
def drops (s : Server) : Prop := s.connected = false ∨ maxPendingOutput < s.outbox.length

theorem sends_of_drops {s : Server} (h : s.drops) (ms : List ServerMessage) :
    ms.foldl send s = s := by
  induction ms with
  | nil => rfl
  | cons m ms ih =>
    have hsend : s.send m = s := if_pos h
    rw [List.foldl_cons, hsend, ih]

/-- Some messages are sent one after another.  Then the lines of the first of them wait: of all of
them, if there is an observer and they do not get too long. -/
theorem sends_outbox (s : Server) (ms : List ServerMessage) :
    ∃ sent, sent <+: ms ∧ (ms.foldl send s).outbox = s.outbox ++ sent.flatMap ServerMessage.line ∧
      (s.connected = true →
        (s.outbox ++ ms.flatMap ServerMessage.line).length ≤ maxPendingOutput → sent = ms) := by
  induction ms generalizing s with
  | nil => exact ⟨[], List.prefix_rfl, by simp, fun _ _ => rfl⟩
  | cons m ms ih =>
    by_cases hdrops : s.drops
    · refine ⟨[], List.nil_prefix, by rw [sends_of_drops hdrops]; simp, fun hconnected hshort => ?_⟩
      rcases hdrops with hfree | hlong
      · rw [hconnected] at hfree
        cases hfree
      · rw [List.length_append] at hshort
        omega
    · have hsend : s.send m = { s with outbox := s.outbox ++ m.line } := if_neg hdrops
      obtain ⟨sent, hprefix, houtbox, hall⟩ := ih (s.send m)
      rw [hsend] at houtbox hall
      rw [List.foldl_cons, hsend]
      refine ⟨m :: sent, List.cons_prefix_cons.mpr ⟨rfl, hprefix⟩, ?_, fun hconnected hshort => ?_⟩
      · rw [houtbox, List.flatMap_cons, List.append_assoc]
      · rw [hall hconnected]
        rwa [List.flatMap_cons, ← List.append_assoc] at hshort

end Server

/-- The wire format undone.  Every message of either side is one line, whatever its texts and
numbers are, and is read back from that line and from any other order of its keys; a stream of lines
gives the messages that it was made of.  So where some messages wait for an observer and more are
sent, what waits then gives those that waited and the first of the others, or all of them if there
is an observer and they do not get too long. -/
theorem messages_roundTrip :
    RoundTrips ServerMessage.toJson ServerMessage.line ServerMessage.read? ∧
      RoundTrips ObserverMessage.toJson ObserverMessage.line ObserverMessage.read? ∧
      ∀ (s : Server) (waiting ms : List ServerMessage),
        s.outbox = waiting.flatMap ServerMessage.line →
          ∃ sent, sent <+: ms ∧
            messagesOf ServerMessage.read? (ms.foldl Server.send s).outbox =
              (waiting ++ sent).map some ∧
            unfinished (ms.foldl Server.send s).outbox = [] ∧
            (s.connected = true →
              ((waiting ++ ms).flatMap ServerMessage.line).length ≤ maxPendingOutput →
                sent = ms) := by
  refine ⟨ServerMessage.roundTrips, ObserverMessage.roundTrips, fun s waiting ms hwaiting => ?_⟩
  obtain ⟨sent, hprefix, houtbox, hall⟩ := s.sends_outbox ms
  rw [hwaiting, ← List.flatMap_append] at houtbox hall
  rw [houtbox]
  obtain ⟨hmessages, hnothing⟩ := ServerMessage.roundTrips.read_stream (waiting ++ sent)
  exact ⟨sent, hprefix, hmessages, hnothing, hall⟩

/-- Channel tables with names that have to be escaped. -/
def quotedTables : ServerMessage :=
  .register [⟨"say \"hi\"\n", 4294967295⟩] [⟨7, "é\\\x01", .level 31⟩, ⟨8, "uart", .stream⟩]

/-- The tables with the keys of the message and of the first output the other way round. -/
def turnedTables : Json :=
  .record [
    ("outputs", .array [
      .record [("bit", .nat 31), ("kind", .text "level"), ("name", .text "é\\\x01"),
        ("id", .nat 7)],
      .record [("id", .nat 8), ("name", .text "uart"), ("kind", .text "stream")]]),
    ("inputs", .array [.record [("name", .text "say \"hi\"\n"), ("bit", .nat 4294967295)]]),
    ("type", .text "register")]

theorem messages_roundTrip_quotedTables :
    let s := ((Server.opened [] []).run [.client (.connect 0)]).accept
    (Reordered quotedTables.toJson turnedTables ∧
      s.outbox = [ServerMessage.register [] []].flatMap ServerMessage.line ∧ s.connected = true) ∧
    ServerMessage.read? (Utf8.decode quotedTables.line) = some quotedTables ∧
    ServerMessage.read? (Utf8.decode (Utf8.encode turnedTables.print ++ [10])) =
      some quotedTables ∧
    messagesOf ServerMessage.read? (s.send quotedTables).outbox =
      [some (.register [] []), some quotedTables] := by
  intro s
  have hturned : Reordered quotedTables.toJson turnedTables := by
    have hfirst : Reordered (OutputChannel.toJson ⟨7, "é\\\x01", .level 31⟩)
        (.record [("bit", .nat 31), ("kind", .text "level"), ("name", .text "é\\\x01"),
          ("id", .nat 7)]) := .keys (List.reverse_perm _).symm
    exact .trans (.member (some "outputs") [_, _] [] (.item [] [_] hfirst))
      (.keys (List.reverse_perm _).symm)
  have hwaiting : s.outbox = [ServerMessage.register [] []].flatMap ServerMessage.line := by
    decide +kernel
  have hconnected : s.connected = true := by decide +kernel
  obtain ⟨hserver, -, hsends⟩ := messages_roundTrip
  obtain ⟨sent, -, hmessages, -, hall⟩ := hsends s [.register [] []] [quotedTables] hwaiting
  obtain rfl : sent = [quotedTables] := hall hconnected (by decide +kernel)
  exact ⟨⟨hturned, hwaiting, hconnected⟩, hserver.read_line quotedTables,
    hserver.read_reordered quotedTables turnedTables hturned [10] (by simp), hmessages⟩

end PinBench.Telemetry
