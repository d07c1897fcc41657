import Mathlib.Data.List.Induction
import PinBench.Proofs.Config.Arguments

/-! The configuration that some arguments make, key by key.  `Decides` says that one key decides a
part of the configuration; `Decides.concat` is one argument, and `Decides.fold` all of them: the
values given to the key change the part one after another, and no other argument matters.  So the
configuration is `byKeys`, where the last number given to a key counts, a flag is raised by any
argument with its key and the script is all that is to be sent. -/

namespace PinBench.Config

/-- The last number that some arguments give to a key. -/
def lastNumber (read : List Char → Option Nat) (key : String) (args : List String) : Option Nat :=
  ((given key args).filterMap read).getLast?

/-- The configuration that takes each of its parts from the arguments with one key. -/
def byKeys (args : List String) : Config where
  clock := standard.clock
  reset := standard.reset
  uart :=
    { baudRate := ((lastNumber (positive? UInt32.size) "baud" args).map UInt32.ofNat).getD
        standard.uart.baudRate
      script := (given "uart_send" args).flatMap Escape.expand }
  jtag :=
    { enabled := args.any (gives "jtag_vpi_enable")
      port := ((lastNumber (Decimal.read? UInt16.size) "jtag_port" args).map UInt16.ofNat).getD
        standard.jtag.port
      divisor := ((lastNumber (positive? UInt64.size) "jtag_divisor" args).map UInt64.ofNat).getD
        standard.jtag.divisor
      loopbackOnly := standard.jtag.loopbackOnly }
  telemetry :=
    { enabled := args.any (gives "telemetry_enable")
      port := ((lastNumber (Decimal.read? UInt16.size) "telemetry_port" args).map
        UInt16.ofNat).getD standard.telemetry.port
      pollInterval := standard.telemetry.pollInterval }
  trace :=
    { enabled := args.any (gives "vcd")
      path := standard.trace.path
      depth := ((lastNumber (Decimal.read? UInt32.size) "trace_depth" args).map UInt32.ofNat).getD
        standard.trace.depth }
  stimulus := standard.stimulus
  timeout := ((lastNumber (Decimal.read? UInt64.size) "timeout" args).map UInt64.ofNat).getD
    standard.timeout
  verbose := args.any (gives "verbose")

/-! ### One key -/

/-- The configuration after one more value for a key. -/
def after (c : Config) (key : String) (text : List Char) : Config :=
  (Setting.ofKey? key.toList text).elim c (apply c)

/-- The arguments with one key decide a part of the configuration: arguments can have the key, which
holds no equals sign, no other setting changes the part, and each value that is given changes it. -/
structure Decides {α : Type} (key : String) (part : Config → α) (change : α → List Char → α) :
    Prop where
  clean : '=' ∉ key.toList
  others : ∀ c s, Setting.key s ≠ key → part (apply c s) = part c
  value : ∀ c text, part (after c key text) = change (part c) text

/-- A number takes the place of the old one, and a text that is none changes nothing. -/
def setNumber {α : Type} (read : List Char → Option Nat) (value : Nat → α) (old : α)
    (text : List Char) : α :=
  ((read text).map value).getD old

theorem ofPlusargs_concat (args : List String) (arg : String) :
    ofPlusargs (args ++ [arg]) =
      (Setting.ofArg? arg.toList).elim (ofPlusargs args) (apply (ofPlusargs args)) := by
  unfold ofPlusargs
  rw [List.filterMap_append, List.foldl_append, List.filterMap_cons, List.filterMap_nil]
  cases Setting.ofArg? arg.toList <;> rfl

namespace Decides

variable {α : Type} {key : String} {part : Config → α} {change : α → List Char → α}
  (h : Decides key part change)
include h

theorem concat (args : List String) (arg : String) :
    part (ofPlusargs (args ++ [arg])) =
      (given? key arg).elim (part (ofPlusargs args)) (change (part (ofPlusargs args))) := by
  rw [ofPlusargs_concat]
  cases htext : given? key arg with
  | some text =>
    rw [ofArg?_of_given? h.clean htext]
    exact h.value _ text
  | none =>
    cases hs : Setting.ofArg? arg.toList with
    | none => rfl
    | some s =>
      apply h.others
      rintro rfl
      obtain ⟨text, hgiven, -⟩ := given?_of_ofArg? hs
      rw [htext] at hgiven
      contradiction

theorem fold (args : List String) :
    part (ofPlusargs args) = (given key args).foldl change (part standard) := by
  induction args using List.reverseRecOn with
  | nil => rfl
  | append_singleton args arg ih =>
    rw [h.concat, ih, given, given, List.filterMap_append, List.foldl_append]
    cases htext : given? key arg <;> simp [htext]

end Decides

theorem part_number {α : Type} {key : String} {part : Config → α}
    {read : List Char → Option Nat} {value : Nat → α} (h : Decides key part (setNumber read value))
    (args : List String) :
    part (ofPlusargs args) = ((lastNumber read key args).map value).getD (part standard) := by
  rw [h.fold, lastNumber]
  induction given key args using List.reverseRecOn with
  | nil => rfl
  | append_singleton texts text ih =>
    rw [List.foldl_append, ih, List.filterMap_append]
    cases hn : read text <;> simp [setNumber, hn]

theorem any_gives (key : String) (args : List String) :
    args.any (gives key) = !(given key args).isEmpty := by
  induction args with
  | nil => rfl
  | cons arg args ih =>
    rw [List.any_cons, ih, given, given, gives]
    cases hgiven : given? key arg <;> simp [hgiven]

theorem part_flag {key : String} {part : Config → Bool} (h : Decides key part fun _ _ => true)
    (hstandard : part standard = false) (args : List String) :
    part (ofPlusargs args) = args.any (gives key) := by
  have htrue : ∀ texts : List (List Char), texts.foldl (fun _ _ => true) true = true := by
    intro texts
    induction texts with
    | nil => rfl
    | cons text texts ih => exact ih
  rw [h.fold, any_gives, hstandard]
  cases given key args with
  | nil => rfl
  | cons text texts => exact htrue texts

/-- What no setting changes is as it was. -/
theorem part_fixed {α : Type} (part : Config → α) (h : ∀ c s, part (apply c s) = part c)
    (args : List String) : part (ofPlusargs args) = part standard := by
  induction args using List.reverseRecOn with
  | nil => rfl
  | append_singleton args arg ih =>
    rw [ofPlusargs_concat, ← ih]
    cases Setting.ofArg? arg.toList with
    | none => rfl
    | some s => exact h _ s

/-! ### Every key -/

theorem value_number {α : Type} {key : String} {read : List Char → Option Nat} {value : Nat → α}
    (part : Config → α) (make : Nat → Setting)
    (hread : ∀ text, Setting.ofKey? key.toList text = (read text).map make)
    (hmake : ∀ c n, part (apply c (make n)) = value n) (c : Config) (text : List Char) :
    part (after c key text) = setNumber read value (part c) text := by
  rw [after, hread, setNumber]
  cases read text with
  | none => rfl
  | some n => exact hmake c n

theorem decides_timeout : Decides "timeout" Config.timeout
    (setNumber (Decimal.read? UInt64.size) UInt64.ofNat) where
  clean := by decide
  others c s h := by cases s <;> first | rfl | exact absurd rfl h
  value := value_number Config.timeout (fun n => .timeout (UInt64.ofNat n))
    (fun _ => rfl) fun _ _ => rfl

theorem decides_traceDepth : Decides "trace_depth" (fun c => c.trace.depth)
    (setNumber (Decimal.read? UInt32.size) UInt32.ofNat) where
  clean := by decide
  others c s h := by cases s <;> first | rfl | exact absurd rfl h
  value := value_number (fun c => c.trace.depth) (fun n => .traceDepth (UInt32.ofNat n))
    (fun _ => rfl) fun _ _ => rfl

theorem decides_jtagPort : Decides "jtag_port" (fun c => c.jtag.port)
    (setNumber (Decimal.read? UInt16.size) UInt16.ofNat) where
  clean := by decide
  others c s h := by cases s <;> first | rfl | exact absurd rfl h
  value := value_number (fun c => c.jtag.port) (fun n => .jtagPort (UInt16.ofNat n))
    (fun _ => rfl) fun _ _ => rfl

theorem decides_jtagDivisor : Decides "jtag_divisor" (fun c => c.jtag.divisor)
    (setNumber (positive? UInt64.size) UInt64.ofNat) where
  clean := by decide
  others c s h := by cases s <;> first | rfl | exact absurd rfl h
  value := value_number (fun c => c.jtag.divisor) (fun n => .jtagDivisor (UInt64.ofNat n))
    (fun _ => rfl) fun _ _ => rfl

theorem decides_telemetryPort : Decides "telemetry_port" (fun c => c.telemetry.port)
    (setNumber (Decimal.read? UInt16.size) UInt16.ofNat) where
  clean := by decide
  others c s h := by cases s <;> first | rfl | exact absurd rfl h
  value := value_number (fun c => c.telemetry.port) (fun n => .telemetryPort (UInt16.ofNat n))
    (fun _ => rfl) fun _ _ => rfl

theorem decides_baudRate : Decides "baud" (fun c => c.uart.baudRate)
    (setNumber (positive? UInt32.size) UInt32.ofNat) where
  clean := by decide
  others c s h := by cases s <;> first | rfl | exact absurd rfl h
  value := value_number (fun c => c.uart.baudRate) (fun n => .baudRate (UInt32.ofNat n))
    (fun _ => rfl) fun _ _ => rfl

theorem decides_trace : Decides "vcd" (fun c => c.trace.enabled) fun _ _ => true where
  clean := by decide
  others c s h := by cases s <;> first | rfl | exact absurd rfl h
  value _ _ := rfl

theorem decides_jtag : Decides "jtag_vpi_enable" (fun c => c.jtag.enabled) fun _ _ => true where
  clean := by decide
  others c s h := by cases s <;> first | rfl | exact absurd rfl h
  value _ _ := rfl

theorem decides_telemetry :
    Decides "telemetry_enable" (fun c => c.telemetry.enabled) fun _ _ => true where
  clean := by decide
  others c s h := by cases s <;> first | rfl | exact absurd rfl h
  value _ _ := rfl

theorem decides_verbose : Decides "verbose" Config.verbose fun _ _ => true where
  clean := by decide
  others c s h := by cases s <;> first | rfl | exact absurd rfl h
  value _ _ := rfl

theorem decides_script : Decides "uart_send" (fun c => c.uart.script)
    fun old text => old ++ Escape.expand text where
  clean := by decide
  others c s h := by cases s <;> first | rfl | exact absurd rfl h
  value _ _ := rfl

theorem ofPlusargs_eq_byKeys (args : List String) : ofPlusargs args = byKeys args := by
  have hfixed := part_fixed (fun c => (c.clock, c.reset, c.stimulus, c.jtag.loopbackOnly,
    c.telemetry.pollInterval, c.trace.path)) (fun c s => by cases s <;> rfl) args
  simp only [Prod.mk.injEq] at hfixed
  obtain ⟨hclock, hreset, hstimulus, hloopback, hinterval, hpath⟩ := hfixed
  have hscript : (ofPlusargs args).uart.script =
      (given "uart_send" args).flatMap Escape.expand := by
    rw [decides_script.fold, List.flatMap_eq_foldl]
    rfl
  have hbaud := part_number decides_baudRate args
  have hdepth := part_number decides_traceDepth args
  have hport := part_number decides_jtagPort args
  have hdivisor := part_number decides_jtagDivisor args
  have htelemetry := part_number decides_telemetryPort args
  have htimeout := part_number decides_timeout args
  unfold byKeys
  rw [← hscript, ← hbaud, ← hdepth, ← hport, ← hdivisor, ← htelemetry, ← htimeout, ← hclock,
    ← hreset, ← hstimulus, ← hloopback, ← hinterval, ← hpath, ← part_flag decides_trace rfl,
    ← part_flag decides_jtag rfl, ← part_flag decides_telemetry rfl,
    ← part_flag decides_verbose rfl]

/-! ### Order -/

/-- All keys that are understood. -/
def keys : List String := numbers.map Prod.fst ++ words

theorem given_filter (key : String) (args : List String) :
    given key (args.filter (gives key)) = given key args := by
  have hsame : (fun arg => if gives key arg = true then given? key arg else none) = given? key := by
    funext arg
    rw [gives]
    cases given? key arg <;> rfl
  rw [given, given, List.filterMap_filter, hsame]

/-- The values given to the keys are all that matters. -/
theorem byKeys_congr {args others : List String}
    (h : ∀ key ∈ keys, given key args = given key others) : byKeys args = byKeys others := by
  have hnumber : ∀ read, ∀ key ∈ keys, lastNumber read key args = lastNumber read key others := by
    intro read key hkey
    rw [lastNumber, lastNumber, h key hkey]
  have hflag : ∀ key ∈ keys, args.any (gives key) = others.any (gives key) := by
    intro key hkey
    rw [any_gives, any_gives, h key hkey]
  unfold byKeys
  rw [hnumber _ "baud" (by decide), hnumber _ "jtag_port" (by decide),
    hnumber _ "jtag_divisor" (by decide), hnumber _ "telemetry_port" (by decide),
    hnumber _ "trace_depth" (by decide), hnumber _ "timeout" (by decide),
    hflag "jtag_vpi_enable" (by decide), hflag "telemetry_enable" (by decide),
    hflag "vcd" (by decide), hflag "verbose" (by decide), h "uart_send" (by decide)]

/-- What some arguments configure.  Each number is the last one that its key is given, each flag
says whether some argument has its key, the script is put together from all texts to be sent, and
everything else is as usual.  So arguments that do not count may stand anywhere, and arguments with
different keys may change places. -/
theorem plusargs_fold_by_key :
    (∀ args, ofPlusargs args = byKeys args) ∧
    (∀ args others : List String, args.filter counts = others.filter counts →
      ofPlusargs args = ofPlusargs others) ∧
    ∀ args others : List String,
      (∀ key ∈ keys, args.filter (gives key) = others.filter (gives key)) →
        ofPlusargs args = ofPlusargs others := by
  refine ⟨ofPlusargs_eq_byKeys, fun args others h => ?_, fun args others h => ?_⟩
  · have hleft := ofPlusargs_filter (fun _ => ofArg?_of_not_counts) args
    have hright := ofPlusargs_filter (fun _ => ofArg?_of_not_counts) others
    rw [← hleft, h, hright]
  · rw [ofPlusargs_eq_byKeys, ofPlusargs_eq_byKeys]
    apply byKeys_congr
    intro key hkey
    rw [← given_filter, h key hkey, given_filter]

theorem plusargs_fold_by_key_mixed :
    let args := ["+baud=fast", "+timeout=7", "+uart_send=a=b", "+baud=9600", "+uart_send=\\x04"]
    let padded := ["soc.elf", "+baud=fast", "+timeout=7", "+timeout=soon", "+uart_send=a=b",
      "+nope=3", "+baud=9600", "+baud=0", "+uart_send=\\x04"]
    let turned := ["+baud=fast", "+baud=9600", "+uart_send=a=b", "+uart_send=\\x04", "+timeout=7"]
    (args.filter counts = padded.filter counts ∧
      ∀ key ∈ keys, args.filter (gives key) = turned.filter (gives key)) ∧
    ofPlusargs args = byKeys args ∧ ofPlusargs args = ofPlusargs padded ∧
    ofPlusargs args = ofPlusargs turned ∧
    (ofPlusargs args).uart.baudRate = 9600 ∧ (ofPlusargs args).timeout = 7 ∧
    (ofPlusargs args).uart.script = [97, 61, 98, 4] := by
  intro args padded turned
  have hcounts : args.filter counts = padded.filter counts := by decide +kernel
  have horder : ∀ key ∈ keys, args.filter (gives key) = turned.filter (gives key) := by
    decide +kernel
  obtain ⟨hkeys, hmore, hturned⟩ := plusargs_fold_by_key
  refine ⟨⟨hcounts, horder⟩, hkeys args, hmore _ _ hcounts, hturned _ _ horder, ?_, ?_, ?_⟩
  · rw [part_number decides_baudRate args]
    decide +kernel
  · rw [part_number decides_timeout args]
    decide +kernel
  · have hgiven : given "uart_send" args = ["a=b".toList, "\\x04".toList] := by decide +kernel
    rw [decides_script.fold, hgiven]
    simp [Escape.expand, Escape.hexByte?, Escape.hexDigit?, String.utf8EncodeChar, standard]

end PinBench.Config
