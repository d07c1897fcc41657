import PinBench.CommandLine
import PinBench.Proofs.Config.Folding

/-! How the command line sorts its arguments.  `foldl_add` says what the options collect: the
arguments that start with a plus sign, those that start with a minus sign and are not understood,
and whether any asks for more to be logged.  The command line tells the plus arguments by their
first characters and the configuration by their keys; `arguments_sorted` says that the two agree on
every list of arguments. -/

namespace PinBench.CommandLine

variable {arg : String}

/-- Whether an argument is an option that is not understood. -/
def isUnknown (arg : String) : Bool := startsWith '-' arg && !asksVerbose arg

/-- Whether an argument asks for more to be logged, in either of the two ways. -/
def raisesVerbose (arg : String) : Bool := asksVerbose arg || Config.gives "verbose" arg

/-! ### One argument -/

theorem not_plus_of_minus (h : startsWith '-' arg = true) : startsWith '+' arg = false := by
  simp only [startsWith, beq_iff_eq] at h
  simp [startsWith, h]

theorem minus_of_asksVerbose (h : asksVerbose arg = true) : startsWith '-' arg = true := by
  simp only [asksVerbose, Bool.or_eq_true, beq_iff_eq] at h
  rcases h with rfl | rfl <;> decide

/-- The prefixes that the command line looks for are those of the key. -/
theorem gives_verbose (arg : String) :
    (arg == "+verbose" || "+verbose=".toList.isPrefixOf arg.toList) =
      Config.gives "verbose" arg := by
  have hbare : arg = "+verbose" ↔ arg.toList = '+' :: "verbose".toList := by
    rw [← String.toList_inj]
    rfl
  have hstart : "+verbose=".toList = '+' :: ("verbose".toList ++ ['=']) := rfl
  rw [Bool.eq_iff_iff, Bool.or_eq_true, beq_iff_eq, hbare, hstart, List.isPrefixOf_iff_prefix,
    Config.gives_iff]

theorem plus_of_gives {key : String} (h : Config.gives key arg = true) :
    startsWith '+' arg = true := by
  rcases Config.gives_iff.mp h with hbare | ⟨rest, hrest⟩
  · simp [startsWith, hbare]
  · simp [startsWith, ← hrest]

theorem ofArg?_of_not_plus (h : startsWith '+' arg = false) :
    Config.Setting.ofArg? arg.toList = none := by
  cases hs : Config.Setting.ofArg? arg.toList with
  | none => rfl
  | some s =>
    obtain ⟨value, hgiven, -⟩ := Config.given?_of_ofArg? hs
    have hgives : Config.gives s.key arg = true := by
      rw [Config.gives, hgiven]
      rfl
    rw [plus_of_gives hgives] at h
    contradiction

theorem add_eq (o : Options) (arg : String) :
    o.add arg = ⟨o.plusargs ++ [arg].filter (startsWith '+'), o.verbose || raisesVerbose arg,
      o.unknown ++ [arg].filter isUnknown⟩ := by
  have hgives : startsWith '+' arg = false → Config.gives "verbose" arg = false := by
    intro hplus
    rw [← Bool.not_eq_true]
    intro h
    rw [plus_of_gives h] at hplus
    contradiction
  unfold Options.add
  split
  · rename_i hasks
    have hplus := not_plus_of_minus (minus_of_asksVerbose hasks)
    simp [raisesVerbose, isUnknown, hasks, hplus]
  · rename_i hasks
    split
    · rename_i hminus
      have hplus := not_plus_of_minus hminus
      simp [raisesVerbose, isUnknown, hasks, hminus, hplus, hgives hplus]
    · rename_i hminus
      split
      · rename_i hplus
        rw [Bool.or_assoc, gives_verbose]
        simp [raisesVerbose, isUnknown, hasks, hminus, hplus]
      · rename_i hplus
        simp [raisesVerbose, isUnknown, hasks, hminus, hplus, hgives]

/-! ### All arguments -/

theorem foldl_add (o : Options) (args : List String) :
    args.foldl Options.add o = ⟨o.plusargs ++ args.filter (startsWith '+'),
      o.verbose || args.any raisesVerbose, o.unknown ++ args.filter isUnknown⟩ := by
  induction args generalizing o with
  | nil => simp
  | cons arg args ih =>
    have hcons : arg :: args = [arg] ++ args := rfl
    rw [List.foldl_cons, ih, add_eq, hcons, List.filter_append, List.filter_append,
      List.any_append, List.append_assoc, List.append_assoc, Bool.or_assoc]
    simp only [List.any_cons, List.any_nil, Bool.or_false]

theorem parse_eq (args : List String) :
    parse args = if args.any asksHelp then .help else
      .run ⟨args.filter (startsWith '+'), args.any raisesVerbose, args.filter isUnknown⟩ := by
  rw [parse, foldl_add]
  rfl

theorem asksHelp_iff (args : List String) :
    args.any asksHelp = true ↔ "-h" ∈ args ∨ "--help" ∈ args := by
  simp only [List.any_eq_true, asksHelp, Bool.or_eq_true, beq_iff_eq]
  constructor
  · rintro ⟨arg, hmem, rfl | rfl⟩
    · exact .inr hmem
    · exact .inl hmem
  · rintro (hmem | hmem)
    · exact ⟨_, hmem, .inr rfl⟩
    · exact ⟨_, hmem, .inl rfl⟩

theorem raisesVerbose_iff (args : List String) :
    args.any raisesVerbose = true ↔ "-v" ∈ args ∨ "--verbose" ∈ args ∨
      (Config.ofPlusargs args).verbose = true := by
  rw [Config.part_flag Config.decides_verbose rfl, List.any_eq_true]
  simp only [List.any_eq_true, raisesVerbose, asksVerbose, Bool.or_eq_true, beq_iff_eq]
  constructor
  · rintro ⟨arg, hmem, (rfl | rfl) | hgives⟩
    · exact .inr (.inl hmem)
    · exact .inl hmem
    · exact .inr (.inr ⟨arg, hmem, hgives⟩)
  · rintro (hmem | hmem | ⟨arg, hmem, hgives⟩)
    · exact ⟨_, hmem, .inl (.inr rfl)⟩
    · exact ⟨_, hmem, .inl (.inl rfl)⟩
    · exact ⟨arg, hmem, .inr hgives⟩

/-- The arguments of the command line.  Help is given where it is asked for.  Otherwise the plus
arguments that are collected configure the same as all arguments do, more is logged where an option
or the configuration asks for it, and the options that are not understood are all the others that
start with a minus sign, in order. -/
theorem arguments_sorted (args : List String) :
    (parse args = .help ↔ "-h" ∈ args ∨ "--help" ∈ args) ∧
    ∀ options, parse args = .run options →
      Config.ofPlusargs options.plusargs = Config.ofPlusargs args ∧
      (options.verbose = true ↔ "-v" ∈ args ∨ "--verbose" ∈ args ∨
        (Config.ofPlusargs options.plusargs).verbose = true) ∧
      options.unknown =
        args.filter fun arg => startsWith '-' arg && (arg != "-v" && arg != "--verbose") := by
  constructor
  · rw [← asksHelp_iff, parse_eq]
    cases args.any asksHelp <;> simp
  · intro options hrun
    obtain rfl : options = ⟨args.filter (startsWith '+'), args.any raisesVerbose,
        args.filter isUnknown⟩ := by
      rw [parse_eq] at hrun
      split at hrun
      · contradiction
      · exact (Request.run.inj hrun).symm
    have hplusargs : Config.ofPlusargs (args.filter (startsWith '+')) = Config.ofPlusargs args :=
      Config.ofPlusargs_filter (fun _ => ofArg?_of_not_plus) args
    refine ⟨hplusargs, ?_, ?_⟩
    · rw [hplusargs]
      exact raisesVerbose_iff args
    · apply List.filter_congr
      intro arg _
      rw [isUnknown, asksVerbose, Bool.not_or, Bool.and_comm (!_)]
      rfl

theorem arguments_sorted_mixed :
    let args := ["model.bin", "+verbose=0", "--fast", "+verbosely", "-v", "+timeout=5", "-", "+"]
    let options : Options :=
      ⟨["+verbose=0", "+verbosely", "+timeout=5", "+"], true, ["--fast", "-"]⟩
    parse args = .run options ∧ ¬("-h" ∈ args ∨ "--help" ∈ args) ∧
    Config.ofPlusargs options.plusargs = Config.ofPlusargs args ∧
    (Config.ofPlusargs options.plusargs).verbose = true ∧
    options.unknown =
      args.filter fun arg => startsWith '-' arg && (arg != "-v" && arg != "--verbose") := by
  intro args options
  have hrun : parse args = .run options := by decide +kernel
  have hverbose : (Config.ofPlusargs options.plusargs).verbose = true := by
    rw [Config.part_flag Config.decides_verbose rfl]
    decide
  obtain ⟨hhelp, hsorted⟩ := arguments_sorted args
  obtain ⟨hsame, -, hunknown⟩ := hsorted options hrun
  refine ⟨hrun, fun hasked => ?_, hsame, hverbose, hunknown⟩
  rw [hhelp.mpr hasked] at hrun
  contradiction

end PinBench.CommandLine
