import PinBench.Proofs.Json.KeyOrder
import PinBench.Proofs.Json.Numbers
import PinBench.Telemetry.Message

/-! Messages as JSON.  Every message of either side is read back from the value that it is written
as, and a value is read alike in whatever order the keys of its objects come: the tag of a message
and the kind of a channel may stand anywhere among the other keys. -/

namespace PinBench.Telemetry

open Json

/-! ### Channels -/

section Channels

variable {j j' : Json}

theorem InputChannel.ofJson?_toJson (c : InputChannel) : ofJson? c.toJson = some c := by
  have hnames : ["name", "bit"].Nodup := by decide
  have hfields : c.toJson.allFields? ["name", "bit"] = some [.text c.name, .nat c.bit.toNat] :=
    allFields?_record hnames
  simp only [ofJson?, hfields, toUInt32?_nat]
  rfl

theorem InputChannel.ofJson?_eq (h : Reordered j j') : ofJson? j = ofJson? j' := by
  unfold ofJson?
  match j.allFields? ["name", "bit"], j'.allFields? ["name", "bit"], h.allFields? _ with
  | _, _, .none => rfl
  | _, _, .some .nil => rfl
  | _, _, .some (.cons _ .nil) => rfl
  | _, _, .some (.cons hname (.cons hbit .nil)) =>
    simp only [hname.toText?_eq, hbit.toUInt32?_eq]
  | _, _, .some (.cons _ (.cons _ (.cons _ _))) => rfl

theorem OutputChannel.levelKind?_eq (h : Reordered j j') : levelKind? j = levelKind? j' := by
  unfold levelKind?
  rw [h.toText?_eq, h.toNat?_eq]

theorem OutputChannel.ofJson?_object (members : List (Option String × Json)) :
    ofJson? (.object members) =
      (field? members "id" toUInt32?).bind fun id =>
        (field? members "name" toText?).bind fun name =>
          (field? members "kind" levelKind?).bind fun level =>
            if level then (field? members "bit" toUInt32?).map fun bit => ⟨id, name, .level bit⟩
            else some ⟨id, name, .stream⟩ := by
  simp only [ofJson?, field?, Option.bind_eq_bind, Option.bind_assoc, Option.map_eq_bind]
  rfl

theorem OutputChannel.ofJson?_toJson (c : OutputChannel) : ofJson? c.toJson = some c := by
  obtain ⟨id, name, kind⟩ := c
  have hlevel : levelKind? (.text "level") = some true := rfl
  have hstream : levelKind? (.text "stream") = some false := rfl
  cases kind with
  | level bit =>
    let members : List (String × Json) :=
      [("id", .nat id.toNat), ("name", .text name), ("kind", .text "level"),
        ("bit", .nat bit.toNat)]
    have hnames : (members.map (·.1)).Nodup := by simp [members]
    have hfields : toJson ⟨id, name, .level bit⟩ =
      .object (members.map fun m => (some m.1, m.2)) := rfl
    rw [hfields, ofJson?_object, field?_record _ hnames (.head _),
      field?_record _ hnames (.tail _ (.head _)),
      field?_record _ hnames (.tail _ (.tail _ (.head _))),
      field?_record _ hnames (.tail _ (.tail _ (.tail _ (.head _)))), toUInt32?_nat, toUInt32?_nat,
      hlevel]
    rfl
  | stream =>
    let members : List (String × Json) :=
      [("id", .nat id.toNat), ("name", .text name), ("kind", .text "stream")]
    have hnames : (members.map (·.1)).Nodup := by simp [members]
    have hfields : toJson ⟨id, name, .stream⟩ =
      .object (members.map fun m => (some m.1, m.2)) := rfl
    rw [hfields, ofJson?_object, field?_record _ hnames (.head _),
      field?_record _ hnames (.tail _ (.head _)),
      field?_record _ hnames (.tail _ (.tail _ (.head _))), toUInt32?_nat, hstream]
    rfl

theorem OutputChannel.ofJson?_eq (h : Reordered j j') : ofJson? j = ofJson? j' := by
  induction h with
  | refl => rfl
  | trans _ _ ih ih' => exact ih.trans ih'
  | keys hperm => simp only [ofJson?_object, field?_perm hperm]
  | item => rfl
  | member key before after h _ =>
    have hmembers := h.alike_member key before after
    simp only [ofJson?_object, hmembers.field?_eq Reordered.toUInt32?_eq,
      hmembers.field?_eq Reordered.toText?_eq, hmembers.field?_eq levelKind?_eq]

end Channels

/-! ### Tags -/

section Tags

variable {j j' : Json}

theorem representable_eq (h : Reordered j j') : representable j = representable j' := by
  rw [representable, representable, h.depth_eq, h.wellFormed_eq]

theorem tagged?_object (members : List (Option String × Json)) :
    tagged? (.object members) =
      if representable (.object members) then
        (field? members "type" toText?).map fun tag =>
          (tag, .object (members.filter (fun m => m.1 != some "type")))
      else none := by
  simp only [tagged?, field?, Option.bind_eq_bind, Option.bind_assoc, Option.map_eq_bind]
  rfl

theorem tagged?_array (tag : Json) (rest : List Json) :
    tagged? (.array (tag :: rest)) =
      if representable (.array (tag :: rest)) then tag.toText?.map fun tag => (tag, .array rest)
      else none := rfl

/-- The same tag, with fields that are reordered. -/
def SameTag (p p' : String × Json) : Prop := p.1 = p'.1 ∧ Reordered p.2 p'.2

theorem SameTag.refl (p : String × Json) : SameTag p p := ⟨rfl, .refl p.2⟩

theorem SameTag.trans {p q r : String × Json} (h : SameTag p q) (h' : SameTag q r) : SameTag p r :=
  ⟨h.1.trans h'.1, h.2.trans h'.2⟩

theorem rel_map_tag (tag : Option String) (h : Reordered j j') :
    Option.Rel SameTag (tag.map fun tag => (tag, j)) (tag.map fun tag => (tag, j')) := by
  cases tag with
  | none => exact .none
  | some tag => exact .some ⟨rfl, h⟩

/-- Reordering keeps the tag and reorders the fields. -/
theorem tagged?_rel (h : Reordered j j') : Option.Rel SameTag (tagged? j) (tagged? j') := by
  induction h with
  | refl => exact rel_refl .refl _
  | trans _ _ ih ih' => exact rel_trans .trans ih ih'
  | keys hperm =>
    rw [tagged?_object, tagged?_object, representable_eq (.keys hperm), field?_perm hperm]
    split
    · exact rel_map_tag _ (.keys (hperm.filter _))
    · exact .none
  | @item j j' before after h _ =>
    cases before with
    | nil =>
      have hwhole : representable (.array (j :: after)) = representable (.array (j' :: after)) :=
        representable_eq (h.item [] after)
      rw [List.nil_append, List.nil_append, tagged?_array, tagged?_array, hwhole, h.toText?_eq]
      exact rel_refl .refl _
    | cons tag before =>
      have hwhole : representable (.array (tag :: (before ++ j :: after))) =
          representable (.array (tag :: (before ++ j' :: after))) :=
        representable_eq (h.item (tag :: before) after)
      rw [List.cons_append, List.cons_append, tagged?_array, tagged?_array, hwhole]
      split
      · exact rel_map_tag _ (h.item before after)
      · exact .none
  | member key before after h _ =>
    rw [tagged?_object, tagged?_object, representable_eq (h.member key before after),
      (h.alike_member key before after).field?_eq Reordered.toText?_eq]
    split
    · exact rel_map_tag _ (h.filter_member key before after (· != some "type"))
    · exact .none

/-- What is made of the tag and the fields is made of those of the reordered value. -/
theorem bind_tagged?_eq {M : Type} {make : String → Json → Option M}
    (hmake : ∀ {tag fields fields'}, Reordered fields fields' → make tag fields = make tag fields')
    (h : Reordered j j') :
    ((tagged? j).bind fun p => make p.1 p.2) = (tagged? j').bind fun p => make p.1 p.2 := by
  match tagged? j, tagged? j', tagged?_rel h with
  | _, _, .none => rfl
  | some p, some p', .some ⟨htag, hfields⟩ =>
    rw [Option.bind_some, Option.bind_some, htag, hmake hfields]

end Tags

/-! ### Messages -/

section Messages

variable {j j' : Json} {fields fields' : List Json}

/-- The channel tables from their two fields. -/
def registerOf? : List Json → Option ServerMessage
  | [inputs, outputs] => do
    return .register (← inputs.toList? InputChannel.ofJson?)
      (← outputs.toList? OutputChannel.ofJson?)
  | _ => none

/-- A change from its three fields. -/
def outputOf? : List Json → Option ServerMessage
  | [channel, value, time] => do
    return .output ⟨← channel.toText?, ← value.toUInt64?, ← time.toUInt64?⟩
  | _ => none

/-- Input values from their one field. -/
def inputsOf? : List Json → Option ObserverMessage
  | [values] => (values.toList? toUInt64?).map .inputs
  | _ => none

theorem registerOf?_eq (h : fields.Forall₂ Reordered fields') :
    registerOf? fields = registerOf? fields' := by
  match h with
  | .nil | .cons _ .nil | .cons _ (.cons _ (.cons _ _)) => rfl
  | .cons hinputs (.cons houtputs .nil) =>
    simp only [registerOf?, hinputs.toList?_eq InputChannel.ofJson?_eq,
      houtputs.toList?_eq OutputChannel.ofJson?_eq]

theorem outputOf?_eq (h : fields.Forall₂ Reordered fields') :
    outputOf? fields = outputOf? fields' := by
  match h with
  | .nil | .cons _ .nil | .cons _ (.cons _ .nil) | .cons _ (.cons _ (.cons _ (.cons _ _))) => rfl
  | .cons hchannel (.cons hvalue (.cons htime .nil)) =>
    simp only [outputOf?, hchannel.toText?_eq, hvalue.toUInt64?_eq, htime.toUInt64?_eq]

theorem inputsOf?_eq (h : fields.Forall₂ Reordered fields') :
    inputsOf? fields = inputsOf? fields' := by
  match h with
  | .nil | .cons _ (.cons _ _) => rfl
  | .cons hvalues .nil => simp only [inputsOf?, hvalues.toList?_eq Reordered.toUInt64?_eq]

/-- A message of the server from its tag and its fields. -/
def ServerMessage.ofFields? (tag : String) (fields : Json) : Option ServerMessage :=
  if tag = "register" then (fields.allFields? ["inputs", "outputs"]).bind registerOf?
  else if tag = "output" then (fields.allFields? ["channel", "value", "time"]).bind outputOf?
  else none

/-- A message of the observer from its tag and its fields. -/
def ObserverMessage.ofFields? (tag : String) (fields : Json) : Option ObserverMessage :=
  if tag = "inputs" then (fields.allFields? ["values"]).bind inputsOf? else none

theorem ServerMessage.ofJson?_eq_bind (j : Json) :
    ofJson? j = (tagged? j).bind fun p => ofFields? p.1 p.2 := by
  unfold ofJson?
  split
  · rename_i fields htagged
    rw [htagged, Option.bind_some, ofFields?, if_pos rfl]
    match fields.allFields? ["inputs", "outputs"] with
    | none | some [] | some [_] | some [_, _] | some (_ :: _ :: _ :: _) => rfl
  · rename_i fields htagged
    have hne : "output" ≠ "register" := by decide
    rw [htagged, Option.bind_some, ofFields?, if_neg hne, if_pos rfl]
    match fields.allFields? ["channel", "value", "time"] with
    | none | some [] | some [_] | some [_, _] | some [_, _, _] | some (_ :: _ :: _ :: _ :: _) => rfl
  · rename_i hregister houtput
    match htagged : tagged? j with
    | none => rfl
    | some (tag, fields) =>
      have hnot : tag ≠ "register" ∧ tag ≠ "output" :=
        ⟨fun h => hregister fields (h ▸ htagged), fun h => houtput fields (h ▸ htagged)⟩
      rw [Option.bind_some, ofFields?, if_neg hnot.1, if_neg hnot.2]

theorem ObserverMessage.ofJson?_eq_bind (j : Json) :
    ofJson? j = (tagged? j).bind fun p => ofFields? p.1 p.2 := by
  unfold ofJson?
  split
  · rename_i fields htagged
    rw [htagged, Option.bind_some, ofFields?, if_pos rfl]
    match fields.allFields? ["values"] with
    | none | some [] | some [_] | some (_ :: _ :: _) => rfl
  · rename_i hinputs
    match htagged : tagged? j with
    | none => rfl
    | some (tag, fields) =>
      have hnot : tag ≠ "inputs" := fun h => hinputs fields (h ▸ htagged)
      rw [Option.bind_some, ofFields?, if_neg hnot]

/-- A server message is read alike in any order of its keys. -/
theorem ServerMessage.ofJson?_eq (h : Reordered j j') : ofJson? j = ofJson? j' := by
  rw [ofJson?_eq_bind, ofJson?_eq_bind]
  refine bind_tagged?_eq (fun hfields => ?_) h
  simp only [ofFields?, hfields.bind_allFields?_eq registerOf?_eq,
    hfields.bind_allFields?_eq outputOf?_eq]

theorem ObserverMessage.ofJson?_eq (h : Reordered j j') : ofJson? j = ofJson? j' := by
  rw [ofJson?_eq_bind, ofJson?_eq_bind]
  refine bind_tagged?_eq (fun hfields => ?_) h
  simp only [ofFields?, hfields.bind_allFields?_eq inputsOf?_eq]

end Messages

/-! ### Shape -/

section Shape

/-- A check of numbers that passes all of 64 bits. -/
def Admits (okNumber : List Char → Bool) : Prop :=
  ∀ n < UInt64.size, okNumber (Nat.toDigits 10 n) = true

theorem admits_isNumber : Admits isNumber := fun n _ => isNumber_toDigits n

theorem admits_fitsBinary64 : Admits fitsBinary64 := fun _ h => fitsBinary64_toDigits h

variable {okNumber : List Char → Bool}

theorem Admits.uInt64 (h : Admits okNumber) (v : UInt64) :
    (Json.nat v.toNat).wellFormed okNumber = true := h v.toNat v.toNat_lt

theorem Admits.uInt32 (h : Admits okNumber) (v : UInt32) :
    (Json.nat v.toNat).wellFormed okNumber = true :=
  h v.toNat (Nat.lt_trans v.toNat_lt (by decide))

theorem InputChannel.wellFormed_toJson (h : Admits okNumber) (c : InputChannel) :
    c.toJson.wellFormed okNumber = true := by
  simp [toJson, wellFormed_record, h.uInt32]

theorem OutputChannel.wellFormed_toJson (h : Admits okNumber) (c : OutputChannel) :
    c.toJson.wellFormed okNumber = true := by
  obtain ⟨id, name, kind⟩ := c
  cases kind <;> simp [toJson, wellFormed_record, h.uInt32]

theorem ServerMessage.wellFormed_toJson (h : Admits okNumber) (m : ServerMessage) :
    m.toJson.wellFormed okNumber = true := by
  cases m with
  | register inputs outputs =>
    simp [toJson, wellFormed_record, wellFormed_array,
      InputChannel.wellFormed_toJson h, OutputChannel.wellFormed_toJson h]
  | output c => simp [toJson, wellFormed_record, h.uInt64]

theorem ObserverMessage.wellFormed_toJson (h : Admits okNumber) (m : ObserverMessage) :
    m.toJson.wellFormed okNumber = true := by
  cases m with
  | inputs values => simp [toJson, wellFormed_record, wellFormed_array, h.uInt64]

theorem InputChannel.depth_toJson_le (c : InputChannel) : c.toJson.depth ≤ 1 :=
  depth_record_le (by simp)

theorem OutputChannel.depth_toJson_le (c : OutputChannel) : c.toJson.depth ≤ 1 := by
  obtain ⟨id, name, kind⟩ := c
  cases kind <;> exact depth_record_le (by simp)

theorem ServerMessage.depth_toJson_le (m : ServerMessage) : m.toJson.depth ≤ 3 := by
  cases m with
  | register inputs outputs =>
    have hinputs : (Json.array (inputs.map InputChannel.toJson)).depth ≤ 2 :=
      depth_array_le (List.forall_mem_map.mpr fun c _ => c.depth_toJson_le)
    have houtputs : (Json.array (outputs.map OutputChannel.toJson)).depth ≤ 2 :=
      depth_array_le (List.forall_mem_map.mpr fun c _ => c.depth_toJson_le)
    exact depth_record_le (by simp [hinputs, houtputs])
  | output c => exact depth_record_le (by simp)

theorem ObserverMessage.depth_toJson_le (m : ObserverMessage) : m.toJson.depth ≤ 2 := by
  cases m with
  | inputs values =>
    have hvalues : (Json.array (values.map fun v => .nat v.toNat)).depth ≤ 1 :=
      depth_array_le (by simp)
    exact depth_record_le (by simp [hvalues])

theorem representable_of_depth {j : Json} {d : Nat} (hdepth : j.depth ≤ d) (hd : d ≤ maxDepth)
    (hwell : j.wellFormed fitsBinary64 = true) : representable j = true := by
  rw [representable, hwell, decide_eq_true (Nat.le_trans hdepth hd), Bool.and_self]

theorem ServerMessage.representable_toJson (m : ServerMessage) : representable m.toJson = true :=
  representable_of_depth m.depth_toJson_le (by decide) (m.wellFormed_toJson admits_fitsBinary64)

theorem ObserverMessage.representable_toJson (m : ObserverMessage) :
    representable m.toJson = true :=
  representable_of_depth m.depth_toJson_le (by decide) (m.wellFormed_toJson admits_fitsBinary64)

end Shape

/-! ### Round trips -/

/-- A tag comes back with the fields that stand with it. -/
theorem tagged?_record {tag : String} {members : List (String × Json)}
    (hrep : representable (.record (("type", .text tag) :: members)) = true)
    (hnames : ("type" :: members.map (·.1)).Nodup) :
    tagged? (.record (("type", .text tag) :: members)) = some (tag, .record members) := by
  rw [record] at hrep
  have hall : ((("type", Json.text tag) :: members).map (·.1)).Nodup := hnames
  have htag : field? ((("type", .text tag) :: members).map fun m => (some m.1, m.2)) "type"
      toText? = some tag := field?_record toText? hall (.head _)
  have hfields : ((("type", .text tag) :: members).map fun m => (some m.1, m.2)).filter
      (fun m => m.1 != some "type") = members.map fun m => (some m.1, m.2) := by
    rw [List.map_cons, List.filter_cons_of_neg (by simp), List.filter_eq_self, List.forall_mem_map]
    intro m hm
    have hne : m.1 ≠ "type" := fun heq =>
      (List.nodup_cons.mp hnames).1 (List.mem_map.mpr ⟨m, hm, heq⟩)
    simpa using hne
  rw [record, tagged?_object, if_pos hrep, htag, hfields]
  rfl

theorem ServerMessage.ofJson?_toJson (m : ServerMessage) : ofJson? m.toJson = some m := by
  have hrep := m.representable_toJson
  cases m with
  | register inputs outputs =>
    have hnames : ["type", "inputs", "outputs"].Nodup := by decide
    have hfields : (Json.record [("inputs", .array (inputs.map InputChannel.toJson)),
        ("outputs", .array (outputs.map OutputChannel.toJson))]).allFields? ["inputs", "outputs"] =
          some [.array (inputs.map InputChannel.toJson),
            .array (outputs.map OutputChannel.toJson)] :=
      allFields?_record (List.nodup_cons.mp hnames).2
    rw [ofJson?_eq_bind, toJson, tagged?_record hrep hnames, Option.bind_some, ofFields?,
      if_pos rfl, hfields, Option.bind_some, registerOf?, toList?_map InputChannel.ofJson?_toJson,
      toList?_map OutputChannel.ofJson?_toJson]
    rfl
  | output c =>
    have hnames : ["type", "channel", "value", "time"].Nodup := by decide
    have hfields : (Json.record [("channel", .text c.channel), ("value", .nat c.value.toNat),
        ("time", .nat c.time.toNat)]).allFields? ["channel", "value", "time"] =
          some [.text c.channel, .nat c.value.toNat, .nat c.time.toNat] :=
      allFields?_record (List.nodup_cons.mp hnames).2
    have hne : "output" ≠ "register" := by decide
    rw [ofJson?_eq_bind, toJson, tagged?_record hrep hnames, Option.bind_some, ofFields?,
      if_neg hne, if_pos rfl, hfields, Option.bind_some, outputOf?, toUInt64?_nat, toUInt64?_nat]
    rfl

theorem ObserverMessage.ofJson?_toJson (m : ObserverMessage) : ofJson? m.toJson = some m := by
  have hrep := m.representable_toJson
  cases m with
  | inputs values =>
    have hnames : ["type", "values"].Nodup := by decide
    have hfields : (Json.record [("values", .array (values.map fun v => .nat v.toNat))]).allFields?
        ["values"] = some [.array (values.map fun v => .nat v.toNat)] :=
      allFields?_record (List.nodup_cons.mp hnames).2
    rw [ofJson?_eq_bind, toJson, tagged?_record hrep hnames, Option.bind_some, ofFields?,
      if_pos rfl, hfields, Option.bind_some, inputsOf?, toList?_map toUInt64?_nat]
    rfl

end PinBench.Telemetry
