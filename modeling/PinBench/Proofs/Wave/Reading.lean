import Mathlib.Tactic.Ring
import PinBench.Wave.Command

/-! Reading the body of a value change dump.  The reader knows the lines of the format and nothing
of how they are written: a line that starts with `#` is a time mark, and any other line is the
change of one variable, known by its code.  It reads back what was written (`readBody?_render`), and
codes of different variables differ (`code_injective`). -/

namespace PinBench.Wave

/-- What a line of the body says of a variable: its new value and how many bits it was written
with. -/
structure Change where
  code : List Char
  width : Nat
  value : Nat
  deriving DecidableEq, Repr

inductive Line where
  | mark (time : Nat)
  | change (c : Change)
  deriving DecidableEq, Repr

/-- A time mark and the changes that follow it. -/
structure Block where
  time : Nat
  changes : List Change
  deriving DecidableEq, Repr

/-! ### The reader -/

def readLine? : List Char → Option Line
  | '#' :: digits => some (.mark (Nat.ofDigitChars 10 digits 0))
  | '0' :: code => some (.change ⟨code, 1, 0⟩)
  | '1' :: code => some (.change ⟨code, 1, 1⟩)
  | 'b' :: rest =>
    let bits := rest.takeWhile (· != ' ')
    some (.change ⟨rest.drop (bits.length + 1), bits.length, Nat.ofDigitChars 2 bits 0⟩)
  | _ => none

/-- The changes before the first time mark, and the blocks from there on. -/
def group : List Line → List Change × List Block
  | [] => ([], [])
  | .change c :: rest => (c :: (group rest).1, (group rest).2)
  | .mark time :: rest => ([], ⟨time, (group rest).1⟩ :: (group rest).2)

/-- The blocks of a body.  All its lines have to be complete, and the first one is a time mark. -/
def readBody? (text : String) : Option (List Block) := do
  let lines := text.toList.splitOn '\n'
  let read ← lines.dropLast.mapM readLine?
  match lines.getLast?, group read with
  | some [], ([], blocks) => some blocks
  | _, _ => none

/-- What the blocks up to number `k` say of a variable: its last change there. -/
def lastChange? (blocks : List Block) (k : Nat) (code : List Char) : Option Change :=
  ((blocks.take (k + 1)).flatMap (·.changes)).reverse.find? (·.code == code)

/-! ### Codes -/

theorem codeDigits_of_lt {id : Nat} (h : id < codeBase) : codeDigits id = [id] := by
  rw [codeDigits, if_pos h]

theorem codeDigits_of_not_lt {id : Nat} (h : ¬id < codeBase) :
    codeDigits id = id % codeBase :: codeDigits (id / codeBase - 1) := by
  rw [codeDigits, if_neg h]

theorem codeDigits_ne_nil (id : Nat) : codeDigits id ≠ [] := by
  by_cases h : id < codeBase
  · rw [codeDigits_of_lt h]
    exact List.cons_ne_nil _ _
  · rw [codeDigits_of_not_lt h]
    exact List.cons_ne_nil _ _

theorem codeDigits_lt (id : Nat) : ∀ d ∈ codeDigits id, d < codeBase := by
  induction id using codeDigits.induct with
  | case1 id h =>
    rw [codeDigits_of_lt h]
    intro d hd
    rw [List.mem_singleton.mp hd]
    exact h
  | case2 id h ih =>
    rw [codeDigits_of_not_lt h]
    intro d hd
    rcases List.mem_cons.mp hd with rfl | hd
    · exact Nat.mod_lt _ (by decide)
    · exact ih d hd

theorem codeDigits_injective {a b : Nat} (h : codeDigits a = codeDigits b) : a = b := by
  induction a using codeDigits.induct generalizing b with
  | case1 a ha =>
    rw [codeDigits_of_lt ha] at h
    by_cases hb : b < codeBase
    · rw [codeDigits_of_lt hb] at h
      exact List.head_eq_of_cons_eq h
    · rw [codeDigits_of_not_lt hb] at h
      exact absurd (List.tail_eq_of_cons_eq h).symm (codeDigits_ne_nil _)
  | case2 a ha ih =>
    rw [codeDigits_of_not_lt ha] at h
    by_cases hb : b < codeBase
    · rw [codeDigits_of_lt hb] at h
      exact absurd (List.tail_eq_of_cons_eq h) (codeDigits_ne_nil _)
    · rw [codeDigits_of_not_lt hb] at h
      have hmod := List.head_eq_of_cons_eq h
      have hdiv := ih (List.tail_eq_of_cons_eq h)
      simp only [codeBase] at *
      omega

/-- The characters of codes are printable and no spaces. -/
theorem codeChar_toNat {d : Nat} (h : d < codeBase) :
    (Char.ofNat ('!'.toNat + d)).toNat = 33 + d := by
  have hsmall : 33 + d < 128 := by
    simp only [codeBase] at h
    omega
  have hvalid : Nat.isValidChar (33 + d) := .inl (by omega)
  show (Char.ofNat (33 + d)).toNat = 33 + d
  rw [Char.ofNat, dif_pos hvalid]
  rfl

theorem mem_code {id : Nat} {c : Char} (h : c ∈ code id) : 33 ≤ c.toNat := by
  rw [code, List.mem_reverse, List.mem_map] at h
  obtain ⟨d, hd, rfl⟩ := h
  rw [codeChar_toNat (codeDigits_lt id d hd)]
  exact Nat.le_add_right 33 d

theorem code_injective {a b : Nat} (h : code a = code b) : a = b := by
  have hdigits (id : Nat) : ((code id).reverse.map fun c => c.toNat - 33) = codeDigits id := by
    rw [code, List.reverse_reverse, List.map_map]
    refine (List.map_congr_left fun d hd => ?_).trans (List.map_id _)
    rw [Function.comp, codeChar_toNat (codeDigits_lt id d hd), Nat.add_sub_cancel_left]
    rfl
  refine codeDigits_injective ?_
  rw [← hdigits a, ← hdigits b, h]

/-! ### Lines -/

/-- The number that some levels stand for, most significant first. -/
def number : List Bool → Nat
  | [] => 0
  | level :: rest => level.toNat * 2 ^ rest.length + number rest

theorem ofDigitChars_levelChar (levels : List Bool) :
    Nat.ofDigitChars 2 (levels.map levelChar) 0 = number levels := by
  have hshift (init : Nat) : Nat.ofDigitChars 2 (levels.map levelChar) init =
      init * 2 ^ levels.length + number levels := by
    induction levels generalizing init with
    | nil => simp [number, Nat.ofDigitChars]
    | cons level rest ih =>
      have hdigit : (levelChar level).toNat - '0'.toNat = level.toNat := by cases level <;> rfl
      rw [List.map_cons, Nat.ofDigitChars_cons, ih, hdigit, number, List.length_cons]
      ring
  rw [hshift, Nat.zero_mul, Nat.zero_add]

theorem length_levels (width : Nat) (value : Word) : (levels width value).length = width := by
  simp [levels]

theorem number_levels (width : Nat) (value : Word) :
    number (levels width value) = value.toNat % 2 ^ width := by
  induction width with
  | zero => simp [levels, number, Nat.mod_one]
  | succ width ih =>
    have hsucc : levels (width + 1) value = value.getLsbD width :: levels width value := by
      simp [levels, List.range_succ]
    rw [hsucc, number, length_levels, ih, Nat.mod_pow_succ, ← BitVec.testBit_toNat,
      Nat.toNat_testBit]
    ring

/-- What a command of the body says. -/
def Command.meaning? : Command → Option Line
  | .time now => some (.mark now)
  | .scalar id level => some (.change ⟨code id, 1, level.toNat⟩)
  | .vector id levels => some (.change ⟨code id, levels.length, number levels⟩)
  | _ => none

theorem Command.change_meaning? (width id : Nat) (value : Word) :
    (Command.change width id value).meaning? =
      some (.change ⟨code id, width, value.toNat % 2 ^ width⟩) := by
  unfold change
  split
  · rename_i hone
    have hbit : (value.getLsbD 0).toNat = value.toNat % 2 ^ 1 := by
      rw [← number_levels 1 value]
      simp [levels, number]
    rw [meaning?, hone, hbit]
  · rw [meaning?, length_levels, number_levels]

theorem levelChar_ne (level : Bool) : levelChar level ≠ ' ' ∧ levelChar level ≠ '\n' := by
  cases level <;> decide

theorem newline_not_mem_code (id : Nat) : '\n' ∉ code id := fun h => by
  have hprintable := mem_code h
  revert hprintable
  decide

theorem readLine?_line {c : Command} {l : Line} (h : c.meaning? = some l) :
    readLine? c.line.toList = some l ∧ '\n' ∉ c.line.toList := by
  cases c with
  | time now =>
    cases h
    have hline : (Command.time now).line.toList = '#' :: Nat.toDigits 10 now := by
      show ("#" ++ toString now).toList = _
      simp
    rw [hline]
    refine ⟨by rw [readLine?, Nat.ofDigitChars_ten_toDigits], fun hmem => ?_⟩
    rcases List.mem_cons.mp hmem with hmark | hdigit
    · exact absurd hmark (by decide)
    · exact absurd (Nat.isDigit_of_mem_toDigits (by decide) (by decide) hdigit) (by decide)
  | scalar id level =>
    cases h
    have hline : (Command.scalar id level).line.toList = levelChar level :: code id :=
      String.toList_ofList
    rw [hline]
    refine ⟨by cases level <;> rfl, fun hmem => ?_⟩
    rcases List.mem_cons.mp hmem with hlevel | hcode
    · exact (levelChar_ne level).2 hlevel.symm
    · exact newline_not_mem_code id hcode
  | vector id levels =>
    cases h
    have hline : (Command.vector id levels).line.toList =
        'b' :: (levels.map levelChar ++ ' ' :: code id) := String.toList_ofList
    have hbits : (levels.map levelChar ++ ' ' :: code id).takeWhile (· != ' ') =
        levels.map levelChar := by
      rw [List.takeWhile_append_of_pos]
      · simp
      · intro c hc
        obtain ⟨level, -, rfl⟩ := List.mem_map.mp hc
        simp [(levelChar_ne level).1]
    rw [hline]
    refine ⟨?_, fun hmem => ?_⟩
    · have hcode : (levels.map levelChar ++ ' ' :: code id).drop (levels.length + 1) = code id := by
        rw [List.append_cons]
        exact List.drop_left' (by simp)
      simp only [readLine?, hbits, List.length_map, ofDigitChars_levelChar, hcode]
    · rcases List.mem_cons.mp hmem with hmark | hmem
      · exact absurd hmark (by decide)
      · rcases List.mem_append.mp hmem with hlevel | hcode
        · obtain ⟨level, -, hlevel⟩ := List.mem_map.mp hlevel
          exact (levelChar_ne level).2 hlevel
        · rcases List.mem_cons.mp hcode with hspace | hcode
          · exact absurd hspace (by decide)
          · exact newline_not_mem_code id hcode
  | timescale => cases h
  | scope name => cases h
  | var width id name => cases h
  | upscope => cases h
  | endDefinitions => cases h

/-! ### Whole bodies -/

theorem toList_render (cs : List Command) :
    (render cs).toList = cs.flatMap fun c => c.line.toList ++ ['\n'] := by
  have hfrom (text : String) : (cs.foldl (fun text c => text ++ c.line ++ "\n") text).toList =
      text.toList ++ cs.flatMap fun c => c.line.toList ++ ['\n'] := by
    induction cs generalizing text with
    | nil => simp
    | cons c cs ih =>
      rw [List.foldl_cons, ih]
      simp
  exact hfrom ""

theorem render_append (cs ds : List Command) : render (cs ++ ds) = render cs ++ render ds := by
  apply String.toList_inj.mp
  simp [toList_render]

/-- A body is read back as what its commands say. -/
theorem readBody?_render {cs : List Command} {ls : List Line}
    (h : cs.map Command.meaning? = ls.map some) (hfirst : (group ls).1 = []) :
    readBody? (render cs) = some (group ls).2 := by
  have hlines : (render cs).toList.splitOn '\n' = cs.map (·.line.toList) ++ [[]] ∧
      (cs.map (·.line.toList)).mapM readLine? = some ls := by
    rw [toList_render]
    clear hfirst
    induction cs generalizing ls with
    | nil =>
      cases ls with
      | nil => exact ⟨rfl, rfl⟩
      | cons l ls => cases h
    | cons c cs ih =>
      cases ls with
      | nil => cases h
      | cons l ls =>
        rw [List.map_cons, List.map_cons, List.cons.injEq] at h
        obtain ⟨hread, hline⟩ := readLine?_line h.1
        obtain ⟨hrest, hrestRead⟩ := ih h.2
        constructor
        · have hsplit : (c.line.toList ++ '\n' :: cs.flatMap fun c => c.line.toList ++ ['\n']).splitOn
              '\n' = c.line.toList.splitOn '\n' ++ (cs.flatMap fun c => c.line.toList ++ ['\n']).splitOn
                '\n' := List.splitOnP_append_cons _ _ (by decide)
          rw [List.flatMap_cons, List.append_assoc, List.singleton_append, hsplit, hrest,
            List.splitOn_eq_singleton hline]
          rfl
        · rw [List.map_cons, List.mapM_cons, hread, hrestRead]
          rfl
  cases hgroup : group ls with
  | mk first blocks =>
    rw [hgroup] at hfirst
    obtain rfl : first = [] := hfirst
    rw [readBody?, hlines.1]
    simp only [List.dropLast_concat, hlines.2, List.getLast?_concat, Option.bind_eq_bind,
      Option.bind_some, hgroup]

end PinBench.Wave
