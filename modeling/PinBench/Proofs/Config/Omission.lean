import PinBench.Config.Format
import PinBench.Proofs.Json.Numbers
import PinBench.Proofs.Json.Pruning
import PinBench.Proofs.Json.Reading

/-! Configurations that are written in part.  `Config.keeping` is a configuration in which the
fields that are not kept have their standard values, field by field or part by part.  What is
written of a configuration is read back as the configuration, and if keys are left out of it, in
whatever order the others stand and whatever unknown ones stand among them, it is read as what
`keeping` makes of it (`omitted_is_standard`). -/

namespace PinBench.Config

open Json

/-! ### What is kept

Each predicate on paths is about the paths inside the part. -/

section Keeping

variable (kept : List String → Bool)

def Clock.keeping (c : Clock) : Clock where
  timeStep := if kept ["time_step"] then c.timeStep else standard.clock.timeStep
  startsHigh := if kept ["starts_high"] then c.startsHigh else standard.clock.startsHigh

def Reset.keeping (r : Reset) : Reset where
  releaseTime := if kept ["release_time"] then r.releaseTime else standard.reset.releaseTime
  activeHigh := if kept ["active_high"] then r.activeHigh else standard.reset.activeHigh

def Uart.keeping (u : Uart) : Uart where
  baudRate := if kept ["baud_rate"] then u.baudRate else standard.uart.baudRate
  script := if kept ["tx_script"] then u.script else standard.uart.script

def Jtag.keeping (c : Jtag) : Jtag where
  enabled := if kept ["enabled"] then c.enabled else standard.jtag.enabled
  port := if kept ["port"] then c.port else standard.jtag.port
  divisor := if kept ["divisor"] then c.divisor else standard.jtag.divisor
  loopbackOnly := if kept ["loopback_only"] then c.loopbackOnly else standard.jtag.loopbackOnly

def Telemetry.keeping (c : Telemetry) : Telemetry where
  enabled := if kept ["enabled"] then c.enabled else standard.telemetry.enabled
  port := if kept ["port"] then c.port else standard.telemetry.port
  pollInterval :=
    if kept ["poll_interval"] then c.pollInterval else standard.telemetry.pollInterval

def Trace.keeping (c : Trace) : Trace where
  enabled := if kept ["enabled"] then c.enabled else standard.trace.enabled
  path := if kept ["path"] then c.path else standard.trace.path
  depth := if kept ["depth"] then c.depth else standard.trace.depth

def Stimulus.keeping (c : Stimulus) : Stimulus where
  enabled := if kept ["enabled"] then c.enabled else standard.stimulus.enabled
  interval := if kept ["interval"] then c.interval else standard.stimulus.interval

/-- The configuration with the standard value for each field, and for each part, whose path is not
kept. -/
def keeping (c : Config) : Config where
  clock := if kept ["clock"] then c.clock.keeping (kept <| "clock" :: ·) else standard.clock
  reset := if kept ["reset"] then c.reset.keeping (kept <| "reset" :: ·) else standard.reset
  uart := if kept ["uart"] then c.uart.keeping (kept <| "uart" :: ·) else standard.uart
  jtag := if kept ["jtag"] then c.jtag.keeping (kept <| "jtag" :: ·) else standard.jtag
  telemetry :=
    if kept ["telemetry"] then c.telemetry.keeping (kept <| "telemetry" :: ·)
    else standard.telemetry
  trace := if kept ["trace"] then c.trace.keeping (kept <| "trace" :: ·) else standard.trace
  stimulus :=
    if kept ["stimulus"] then c.stimulus.keeping (kept <| "stimulus" :: ·) else standard.stimulus
  timeout := if kept ["timeout"] then c.timeout else standard.timeout
  verbose := if kept ["verbose"] then c.verbose else standard.verbose

end Keeping

theorem keeping_all (c : Config) : c.keeping (fun _ => true) = c := rfl

/-! ### Each part -/

section Parts

variable {kept : List String → Bool} {j : Json}

theorem Clock.ofJson?_eq (c : Clock) (h : Pruned kept c.toJson j) :
    ofJson? j = some (c.keeping kept) := by
  obtain ⟨after, hafter, hfields⟩ := h.fields? (by simp)
  simp only [List.forall_mem_cons] at hafter
  obtain ⟨htimeStep, hstartsHigh, -⟩ := hafter
  simp only [List.map_cons, List.map_nil] at hfields
  simp only [ofJson?, hfields, Pruned.fieldOr_leaf htimeStep rfl (toUInt64?_nat _),
    Pruned.fieldOr_leaf hstartsHigh rfl (toBool?_bool _)]
  rfl

theorem Reset.ofJson?_eq (r : Reset) (h : Pruned kept r.toJson j) :
    ofJson? j = some (r.keeping kept) := by
  obtain ⟨after, hafter, hfields⟩ := h.fields? (by simp)
  simp only [List.forall_mem_cons] at hafter
  obtain ⟨hreleaseTime, hactiveHigh, -⟩ := hafter
  simp only [List.map_cons, List.map_nil] at hfields
  simp only [ofJson?, hfields, Pruned.fieldOr_leaf hreleaseTime rfl (toUInt64?_nat _),
    Pruned.fieldOr_leaf hactiveHigh rfl (toBool?_bool _)]
  rfl

theorem Uart.ofJson?_eq (u : Uart) (h : Pruned kept u.toJson j) :
    ofJson? j = some (u.keeping kept) := by
  obtain ⟨after, hafter, hfields⟩ := h.fields? (by simp)
  simp only [List.forall_mem_cons] at hafter
  obtain ⟨hbaudRate, hscript, -⟩ := hafter
  simp only [List.map_cons, List.map_nil] at hfields
  simp only [ofJson?, hfields, Pruned.fieldOr_leaf hbaudRate rfl (toUInt32?_nat _),
    Pruned.fieldOr_leaf hscript rfl (toList?_map toUInt8?_nat u.script)]
  rfl

theorem Jtag.ofJson?_eq (c : Jtag) (h : Pruned kept c.toJson j) :
    ofJson? j = some (c.keeping kept) := by
  obtain ⟨after, hafter, hfields⟩ := h.fields? (by simp)
  simp only [List.forall_mem_cons] at hafter
  obtain ⟨henabled, hport, hdivisor, hloopbackOnly, -⟩ := hafter
  simp only [List.map_cons, List.map_nil] at hfields
  simp only [ofJson?, hfields, Pruned.fieldOr_leaf henabled rfl (toBool?_bool _),
    Pruned.fieldOr_leaf hport rfl (toUInt16?_nat _),
    Pruned.fieldOr_leaf hdivisor rfl (toUInt64?_nat _),
    Pruned.fieldOr_leaf hloopbackOnly rfl (toBool?_bool _)]
  rfl

theorem Telemetry.ofJson?_eq (c : Telemetry) (h : Pruned kept c.toJson j) :
    ofJson? j = some (c.keeping kept) := by
  obtain ⟨after, hafter, hfields⟩ := h.fields? (by simp)
  simp only [List.forall_mem_cons] at hafter
  obtain ⟨henabled, hport, hpollInterval, -⟩ := hafter
  simp only [List.map_cons, List.map_nil] at hfields
  simp only [ofJson?, hfields, Pruned.fieldOr_leaf henabled rfl (toBool?_bool _),
    Pruned.fieldOr_leaf hport rfl (toUInt16?_nat _),
    Pruned.fieldOr_leaf hpollInterval rfl (toUInt64?_nat _)]
  rfl

theorem Trace.ofJson?_eq (c : Trace) (h : Pruned kept c.toJson j) :
    ofJson? j = some (c.keeping kept) := by
  obtain ⟨after, hafter, hfields⟩ := h.fields? (by simp)
  simp only [List.forall_mem_cons] at hafter
  obtain ⟨henabled, hpath, hdepth, -⟩ := hafter
  simp only [List.map_cons, List.map_nil] at hfields
  simp only [ofJson?, hfields, Pruned.fieldOr_leaf henabled rfl (toBool?_bool _),
    Pruned.fieldOr_leaf hpath rfl (toText?_text _),
    Pruned.fieldOr_leaf hdepth rfl (toUInt32?_nat _)]
  rfl

theorem Stimulus.ofJson?_eq (c : Stimulus) (h : Pruned kept c.toJson j) :
    ofJson? j = some (c.keeping kept) := by
  obtain ⟨after, hafter, hfields⟩ := h.fields? (by simp)
  simp only [List.forall_mem_cons] at hafter
  obtain ⟨henabled, hinterval, -⟩ := hafter
  simp only [List.map_cons, List.map_nil] at hfields
  simp only [ofJson?, hfields, Pruned.fieldOr_leaf henabled rfl (toBool?_bool _),
    Pruned.fieldOr_leaf hinterval rfl (toUInt64?_nat _)]
  rfl

end Parts

/-! ### The whole -/

theorem ofJson?_eq {kept : List String → Bool} {j : Json} (c : Config)
    (h : Pruned kept c.toJson j) : ofJson? j = some (c.keeping kept) := by
  obtain ⟨after, hafter, hfields⟩ := h.fields? (by simp)
  simp only [List.forall_mem_cons] at hafter
  obtain ⟨hclock, hreset, huart, hjtag, htelemetry, htrace, hstimulus, htimeout, hverbose, -⟩ :=
    hafter
  simp only [List.map_cons, List.map_nil] at hfields
  simp only [ofJson?, hfields, fieldOr_ite fun h => c.clock.ofJson?_eq (hclock h),
    fieldOr_ite fun h => c.reset.ofJson?_eq (hreset h),
    fieldOr_ite fun h => c.uart.ofJson?_eq (huart h),
    fieldOr_ite fun h => c.jtag.ofJson?_eq (hjtag h),
    fieldOr_ite fun h => c.telemetry.ofJson?_eq (htelemetry h),
    fieldOr_ite fun h => c.trace.ofJson?_eq (htrace h),
    fieldOr_ite fun h => c.stimulus.ofJson?_eq (hstimulus h),
    Pruned.fieldOr_leaf htimeout rfl (toUInt64?_nat _),
    Pruned.fieldOr_leaf hverbose rfl (toBool?_bool _)]
  rfl

theorem wellFormed_toJson (c : Config) : c.toJson.wellFormed isNumber = true := by
  have hbool (b : Bool) : (Json.bool b).wellFormed isNumber = true := rfl
  simp [toJson, Clock.toJson, Reset.toJson, Uart.toJson, Jtag.toJson, Telemetry.toJson,
    Trace.toJson, Stimulus.toJson, wellFormed_record, wellFormed_array, wellFormed_nat, hbool]

/-- A configuration is read back from what is written of it.  If keys are left out of that, at the
top or inside a part, and the others stand in any order and among unknown ones, then whatever text
says so is read as the configuration with the standard values for the fields and the parts that
were left out. -/
theorem omitted_is_standard (c : Config) :
    read? c.print = some c ∧
      ∀ (kept : List String → Bool) (j : Json), Pruned kept c.toJson j →
        (∀ text, Json.read? text = some j → read? text = some (c.keeping kept)) ∧
          (j.wellFormed isNumber = true → read? j.print = some (c.keeping kept)) := by
  have hread (j : Json) (hj : j.wellFormed isNumber = true) : Json.read? j.print = some j := by
    have hblank : ∀ c ∈ ([] : List Char), c ∈ blanks := by simp
    have h := read?_print hj hblank
    rwa [List.append_nil] at h
  have hpruned {kept : List String → Bool} {j : Json} (h : Pruned kept c.toJson j)
      {text : List Char} (htext : Json.read? text = some j) :
      read? text = some (c.keeping kept) := by
    rw [read?, htext, Option.bind_some, c.ofJson?_eq h]
  refine ⟨?_, fun kept j h => ⟨fun text => hpruned h, fun hj => hpruned h (hread j hj)⟩⟩
  have hwhole := hpruned (.whole c.toJson) (hread c.toJson c.wellFormed_toJson)
  rwa [keeping_all] at hwhole

/-- A configuration with hardly a standard value in it. -/
def unusual : Config where
  clock := ⟨0, false⟩
  reset := ⟨7, false⟩
  uart := ⟨9600, [104, 0, 255]⟩
  jtag := ⟨true, 0, 18446744073709551615, false⟩
  telemetry := ⟨true, 1, 1⟩
  trace := ⟨true, "say \"hi\".vcd", 4294967295⟩
  stimulus := ⟨false, 3⟩
  timeout := 5
  verbose := true

/-- Two fields of the debug server, one of the recording and one of the whole. -/
def named (path : List String) : Bool :=
  [["jtag"], ["jtag", "enabled"], ["jtag", "port"], ["trace"], ["trace", "path"],
    ["verbose"]].contains path

/-- These fields in another order, with a comment among them. -/
def namedFields : Json :=
  .record [("jtag", .record [("port", .nat 0), ("enabled", .bool true)]),
    ("comment", .array [.null, .number ['1', 'e', '9', '9', '9']]),
    ("trace", .record [("path", .text "say \"hi\".vcd")]), ("verbose", .bool true)]

theorem pruned_namedFields : Pruned named unusual.toJson namedFields := by
  have hjtag : Pruned (fun path => named ("jtag" :: path)) unusual.jtag.toJson
      (.record [("port", .nat 0), ("enabled", .bool true)]) := by
    refine @Pruned.record _ _ [] _ (fun name => if name = "port" then .nat 0 else .bool true)
      ?_ (by simp) (.swap _ _ _)
    simp only [List.forall_mem_cons]
    exact ⟨fun _ => .leaf rfl, fun _ => .leaf rfl, nofun, nofun, by simp⟩
  have htrace : Pruned (fun path => named ("trace" :: path)) unusual.trace.toJson
      (.record [("path", .text "say \"hi\".vcd")]) := by
    refine @Pruned.record _ _ [] _ (fun _ => .text "say \"hi\".vcd") ?_ (by simp) (.refl _)
    simp only [List.forall_mem_cons]
    exact ⟨nofun, fun _ => .leaf rfl, nofun, by simp⟩
  refine @Pruned.record _ _ [("comment", .array [.null, .number ['1', 'e', '9', '9', '9']])] _
    (fun name =>
      if name = "jtag" then .record [("port", .nat 0), ("enabled", .bool true)]
      else if name = "trace" then .record [("path", .text "say \"hi\".vcd")]
      else .bool true) ?_ (by simp) ?_
  · simp only [List.forall_mem_cons]
    exact ⟨nofun, nofun, nofun, fun _ => hjtag, nofun, fun _ => htrace, nofun, nofun,
      fun _ => .leaf rfl, by simp⟩
  · exact .cons _ (@List.perm_append_comm _ [_] [_, _])

theorem omitted_is_standard_namedFields :
    let c := { standard with
      jtag := ⟨true, 0, 1, true⟩, trace := ⟨false, "say \"hi\".vcd", 99⟩, verbose := true }
    (Pruned named unusual.toJson namedFields ∧ namedFields.wellFormed isNumber = true ∧
      Json.read? (namedFields.print ++ ['\n']) = some namedFields) ∧
    read? unusual.print = some unusual ∧ read? namedFields.print = some c ∧
      read? (namedFields.print ++ ['\n']) = some c := by
  intro c
  have hwell : namedFields.wellFormed isNumber = true := by decide
  have htext : Json.read? (namedFields.print ++ ['\n']) = some namedFields :=
    read?_print hwell (by simp [blanks])
  obtain ⟨hread, hpruned⟩ := omitted_is_standard unusual
  obtain ⟨hanyText, hprinted⟩ := hpruned named namedFields pruned_namedFields
  exact ⟨⟨pruned_namedFields, hwell, htext⟩, hread, hprinted hwell, hanyText _ htext⟩

end PinBench.Config
