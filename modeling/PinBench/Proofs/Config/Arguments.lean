import Mathlib.Data.List.TakeWhile
import PinBench.Config.Plusargs

/-! Arguments by key.  `given?` tells what an argument gives to a key by a prefix test, where the
configuration cuts the argument at its first equals sign and compares what stands before; the two
agree (`given?_eq_some_iff`).  A setting comes from the value that its argument gives to the
setting's own key (`given?_of_ofArg?`), and only arguments that count make one
(`ofArg?_of_not_counts`). -/

namespace PinBench.Config

/-! ### Keys and values -/

/-- The value that an argument gives to a key: the text after `+key=`, and no text for `+key`. -/
def given? (key arg : String) : Option (List Char) :=
  if arg.toList = '+' :: key.toList then some []
  else if '+' :: (key.toList ++ ['=']) <+: arg.toList then
    some (arg.toList.drop (key.toList.length + 2))
  else none

def gives (key arg : String) : Bool := (given? key arg).isSome

/-- The values that some arguments give to a key, in order. -/
def given (key : String) (args : List String) : List (List Char) := args.filterMap (given? key)

/-- The keys that need a number, with what reads it. -/
def numbers : List (String × (List Char → Option Nat)) :=
  [("timeout", Decimal.read? UInt64.size), ("trace_depth", Decimal.read? UInt32.size),
    ("jtag_port", Decimal.read? UInt16.size), ("jtag_divisor", positive? UInt64.size),
    ("telemetry_port", Decimal.read? UInt16.size), ("baud", positive? UInt32.size)]

/-- The keys that take any value. -/
def words : List String := ["vcd", "jtag_vpi_enable", "telemetry_enable", "uart_send", "verbose"]

/-- Whether an argument has a key that is understood, and a number where the key needs one. -/
def counts (arg : String) : Bool :=
  words.any (gives · arg) || numbers.any fun (key, read) => ((given? key arg).bind read).isSome

/-- The key of the arguments that make a setting. -/
def Setting.key : Setting → String
  | .timeout _ => "timeout"
  | .trace => "vcd"
  | .traceDepth _ => "trace_depth"
  | .jtag => "jtag_vpi_enable"
  | .jtagPort _ => "jtag_port"
  | .jtagDivisor _ => "jtag_divisor"
  | .telemetry => "telemetry_enable"
  | .telemetryPort _ => "telemetry_port"
  | .send _ => "uart_send"
  | .baudRate _ => "baud"
  | .verbose => "verbose"

theorem gives_iff {key arg : String} :
    gives key arg = true ↔
      arg.toList = '+' :: key.toList ∨ '+' :: (key.toList ++ ['=']) <+: arg.toList := by
  unfold gives given?
  split
  · rename_i hbare
    simp [hbare]
  · rename_i hbare
    split
    · rename_i hstart
      simp [hstart]
    · rename_i hstart
      simp [hbare, hstart]

/-! ### Where an argument is cut -/

/-- An argument is cut at its first equals sign. -/
theorem plusarg?_eq_some_iff {arg key value : List Char} :
    plusarg? arg = some (key, value) ↔ '=' ∉ key ∧
      (arg = '+' :: key ∧ value = [] ∨ arg = '+' :: (key ++ '=' :: value)) := by
  constructor
  · intro h
    unfold plusarg? at h
    split at h
    · rename_i text
      obtain ⟨rfl, rfl⟩ := Prod.mk.inj (Option.some_inj.mp h)
      have hnot : '=' ∉ text.takeWhile (· != '=') := by
        intro hmem
        have := List.all_eq_true.mp List.all_takeWhile _ hmem
        simp at this
      have hsplit := text.takeWhile_append_dropWhile (p := (· != '='))
      refine ⟨hnot, ?_⟩
      cases hrest : text.dropWhile (· != '=') with
      | nil =>
        left
        rw [hrest, List.append_nil] at hsplit
        rw [hsplit]
        exact ⟨rfl, rfl⟩
      | cons c value =>
        right
        have hc : c = '=' := by
          have := List.head_dropWhile_not (· != '=') (by rw [hrest]; simp)
          simpa [hrest] using this
        rw [hrest, hc] at hsplit
        rw [List.drop_one, List.tail_cons, hsplit]
    · contradiction
  · rintro ⟨hnot, h⟩
    have hkey : ∀ c ∈ key, (c != '=') = true := by
      intro c hc
      simp only [bne_iff_ne, ne_eq]
      rintro rfl
      exact hnot hc
    rcases h with ⟨rfl, rfl⟩ | rfl
    · have htake : key.takeWhile (· != '=') = key := List.takeWhile_eq_self_iff.mpr hkey
      have hdrop : key.dropWhile (· != '=') = [] := List.dropWhile_eq_nil_iff.mpr hkey
      simp [plusarg?, htake, hdrop]
    · simp [plusarg?, List.takeWhile_append_of_pos hkey, List.dropWhile_append_of_pos hkey]

/-- A prefix is enough to tell whether an argument has a key, since no key has an equals sign. -/
theorem given?_eq_some_iff {key arg : String} (hkey : '=' ∉ key.toList) {value : List Char} :
    given? key arg = some value ↔ plusarg? arg.toList = some (key.toList, value) := by
  rw [plusarg?_eq_some_iff]
  constructor
  · intro h
    refine ⟨hkey, ?_⟩
    unfold given? at h
    split at h
    · rename_i hbare
      exact .inl ⟨hbare, (Option.some_inj.mp h).symm⟩
    · split at h
      · rename_i hstart
        obtain ⟨rest, hrest⟩ := hstart
        right
        have hdrop : arg.toList.drop (key.toList.length + 2) = rest := by
          rw [← hrest]
          exact List.drop_left' (by simp)
        rw [hdrop, Option.some_inj] at h
        rw [← hrest, h, List.cons_append, List.append_assoc]
        rfl
      · contradiction
  · rintro ⟨-, ⟨harg, rfl⟩ | harg⟩
    · rw [given?, if_pos harg]
    · have hbare : arg.toList ≠ '+' :: key.toList := by
        rw [harg]
        simp
      have hsplit : '+' :: (key.toList ++ '=' :: value) =
          '+' :: (key.toList ++ ['=']) ++ value := by
        simp
      rw [given?, if_neg hbare, harg, hsplit, if_pos (List.prefix_append _ _)]
      rw [List.drop_left' (by simp)]

/-! ### Settings -/

theorem ofKey?_key {key value : List Char} {s : Setting} (h : Setting.ofKey? key value = some s) :
    s.key = String.ofList key := by
  unfold Setting.ofKey? at h
  split at h <;> grind [Setting.key, Option.map_eq_some_iff]

theorem ofArg?_of_given? {key arg : String} {value : List Char} (hkey : '=' ∉ key.toList)
    (h : given? key arg = some value) :
    Setting.ofArg? arg.toList = Setting.ofKey? key.toList value := by
  rw [Setting.ofArg?, (given?_eq_some_iff hkey).mp h]
  rfl

/-- A setting comes from the value that its argument gives to its key. -/
theorem given?_of_ofArg? {arg : String} {s : Setting} (h : Setting.ofArg? arg.toList = some s) :
    ∃ value, given? s.key arg = some value ∧ Setting.ofKey? s.key.toList value = some s := by
  obtain ⟨⟨key, value⟩, harg, hs⟩ := Option.bind_eq_some_iff.mp h
  have hkey : s.key.toList = key := by
    rw [ofKey?_key hs, String.toList_ofList]
  have hnot : '=' ∉ s.key.toList := by
    rw [hkey]
    exact (plusarg?_eq_some_iff.mp harg).1
  refine ⟨value, ?_, ?_⟩
  · rw [given?_eq_some_iff hnot, hkey, harg]
  · rw [hkey]
    exact hs

theorem isSome_ofKey?_iff {key : String} {value : List Char} :
    (Setting.ofKey? key.toList value).isSome ↔
      key ∈ words ∨ ∃ read, (key, read) ∈ numbers ∧ (read value).isSome := by
  unfold Setting.ofKey?
  rw [String.ofList_toList]
  split <;> simp_all [words, numbers]

/-- An argument that does not count makes no setting. -/
theorem ofArg?_of_not_counts {arg : String} (h : counts arg = false) :
    Setting.ofArg? arg.toList = none := by
  cases hs : Setting.ofArg? arg.toList with
  | none => rfl
  | some s =>
    obtain ⟨value, hgiven, hread⟩ := given?_of_ofArg? hs
    have hsome : (Setting.ofKey? s.key.toList value).isSome := by
      rw [hread]
      rfl
    simp only [counts, Bool.or_eq_false_iff, List.any_eq_false] at h
    rcases isSome_ofKey?_iff.mp hsome with hword | ⟨read, hnumber, hvalue⟩
    · have hnot := h.1 _ hword
      simp [gives, hgiven] at hnot
    · have hnot := h.2 _ hnumber
      simp [hgiven, hvalue] at hnot

/-- Arguments that make no setting can be left out. -/
theorem ofPlusargs_filter {p : String → Bool}
    (h : ∀ arg, p arg = false → Setting.ofArg? arg.toList = none) (args : List String) :
    ofPlusargs (args.filter p) = ofPlusargs args := by
  have hsame : (fun arg : String => if p arg = true then Setting.ofArg? arg.toList else none) =
      fun arg => Setting.ofArg? arg.toList := by
    funext arg
    cases hp : p arg with
    | true => rfl
    | false => rw [h arg hp]; rfl
  rw [ofPlusargs, ofPlusargs, List.filterMap_filter, hsame]

end PinBench.Config
