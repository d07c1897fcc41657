import PinBench.Json.Printer
import PinBench.Json.Token

/-! The tokens of printed JSON.  `Json.tokens` are the tokens that a value is written with, and
`tokens?_print` says that the scanner finds just these in its text, if the value has well-formed
numbers and no half surrogates.  A number ends only with the character after it, so what follows a
value matters: it has to break a number off. -/

namespace PinBench.Json

/-- Whether a literal is a JSON number. -/
def isNumber (literal : List Char) : Bool :=
  let body := match literal with
    | '-' :: rest => rest
    | _ => literal
  (body.foldlM NumberPhase.next? .sign).any NumberPhase.complete

mutual

/-- The tokens that a value is written with. -/
def tokens : Json → List Token
  | .null => [.null]
  | .bool value => [.bool value]
  | .number literal => [.number literal]
  | .string text => [.string text]
  | .array [] => [.openBracket, .closeBracket]
  | .array (item :: rest) => .openBracket :: (item.tokens ++ itemTokens rest)
  | .object [] => [.openBrace, .closeBrace]
  | .object ((key, value) :: rest) =>
    .openBrace :: .string key :: .colon :: (value.tokens ++ memberTokens rest)

/-- The tokens of the items after the first, and of the bracket that closes the array. -/
def itemTokens : List Json → List Token
  | [] => [.closeBracket]
  | item :: rest => .comma :: (item.tokens ++ itemTokens rest)

/-- The tokens of the members after the first, and of the brace that closes the object. -/
def memberTokens : List (Option String × Json) → List Token
  | [] => [.closeBrace]
  | (key, value) :: rest =>
    .comma :: .string key :: .colon :: (value.tokens ++ memberTokens rest)

end

/-- The tokens of a text that follows what has been scanned, whose tokens come last one first. -/
def scan? (acc : List Token × Scan) (text : List Char) : Option (List Token) := do
  let (tokens, s) ← text.foldlM Scan.push? acc
  let last ← s.finish?
  return (last.reverse ++ tokens).reverse

theorem tokens?_eq_scan? (text : List Char) : tokens? text = scan? ([], .between) text := rfl

theorem scan?_cons (acc : List Token × Scan) (c : Char) (text : List Char) :
    scan? acc (c :: text) = (Scan.push? acc c).bind fun acc => scan? acc text := by
  simp only [scan?, List.foldlM_cons, Option.bind_eq_bind, Option.bind_assoc]

/-- A character after which the scanner stands as it is told. -/
theorem scan?_step {s s' : Scan} {c : Char} {new : List Token} (h : s.step? c = some (new, s'))
    (tokens : List Token) (text : List Char) :
    scan? (tokens, s) (c :: text) = scan? (new.reverse ++ tokens, s') text := by
  rw [scan?_cons, Scan.push?, h]
  rfl

variable {tokens : List Token} {rest : List Char} {pieces : List Piece}

/-! ### Strings -/

theorem hexDigit?_hexDigit (n : Nat) : hexDigit? (hexDigit n) = some (n % 16) := by
  have hdigit : ∀ d < 16, hexDigit? (Nat.digitChar d) = some d := by decide
  exact hdigit (n % 16) (Nat.mod_lt n (by decide))

theorem step?_unit {c : Char} {digit : Nat} (h : hexDigit? c = some digit) (owed value : Nat) :
    (Scan.unit pieces (owed + 1) value).step? c =
      some ([], .unit pieces owed (value * 16 + digit)) := by
  rw [Scan.step?, h]
  rfl

theorem step?_unit_last {c : Char} {digit : Nat} (h : hexDigit? c = some digit) (value : Nat) :
    (Scan.unit pieces 0 value).step? c =
      some ([], .string (.ofUnit (value * 16 + digit) :: pieces)) := by
  rw [Scan.step?, h]
  rfl

/-- A control character is read back from its code. -/
theorem scan?_control {c : Char} (h : c.toNat < 0x20) :
    scan? (tokens, .string pieces)
        ('\\' :: 'u' :: '0' :: '0' :: hexDigit (c.toNat / 16) :: hexDigit c.toNat :: rest) =
      scan? (tokens, .string (.char c :: pieces)) rest := by
  have hzero : hexDigit? '0' = some 0 := rfl
  have hunit : Piece.ofUnit ((((0 * 16 + 0) * 16 + 0) * 16 + c.toNat / 16 % 16) * 16 +
      c.toNat % 16) = .char c := by
    have hsum : (((0 * 16 + 0) * 16 + 0) * 16 + c.toNat / 16 % 16) * 16 + c.toNat % 16 =
        c.toNat := by omega
    rw [hsum, Piece.ofUnit, if_neg (by omega), if_neg (by omega), Char.ofNat_toNat]
  rw [scan?_step (rfl : Scan.step? (.string pieces) '\\' = some ([], .escape pieces)),
    scan?_step (rfl : Scan.step? (.escape pieces) 'u' = some ([], .unit pieces 3 0)),
    scan?_step (step?_unit hzero 2 0), scan?_step (step?_unit hzero 1 _),
    scan?_step (step?_unit (hexDigit?_hexDigit _) 0 _),
    scan?_step (step?_unit_last (hexDigit?_hexDigit _) _), hunit]
  rfl

theorem scan?_escaped {c e : Char} (h : escaped? e = some c) (hu : e ≠ 'u') :
    scan? (tokens, .string pieces) ('\\' :: e :: rest) =
      scan? (tokens, .string (.char c :: pieces)) rest := by
  have hstep : Scan.step? (.escape pieces) e = some ([], .string (.char c :: pieces)) := by
    rw [Scan.step?, if_neg hu, h]
    rfl
  rw [scan?_step (rfl : Scan.step? (.string pieces) '\\' = some ([], .escape pieces)),
    scan?_step hstep]
  rfl

/-- Every character of a string is read back from the way it is written. -/
theorem scan?_printChar (c : Char) :
    scan? (tokens, .string pieces) (printChar c ++ rest) =
      scan? (tokens, .string (.char c :: pieces)) rest := by
  unfold printChar
  split
  · exact scan?_escaped (e := '"') rfl (by decide)
  · exact scan?_escaped (e := '\\') rfl (by decide)
  · exact scan?_escaped (e := 'b') rfl (by decide)
  · exact scan?_escaped (e := 'f') rfl (by decide)
  · exact scan?_escaped (e := 'n') rfl (by decide)
  · exact scan?_escaped (e := 'r') rfl (by decide)
  · exact scan?_escaped (e := 't') rfl (by decide)
  · rename_i hquote hslash _ _ _ _ _
    split
    · rename_i hcontrol
      exact scan?_control hcontrol
    · rename_i hcontrol
      have hstep : Scan.step? (.string pieces) c = some ([], .string (.char c :: pieces)) := by
        rw [Scan.step?, if_neg hquote, if_neg hslash, if_neg hcontrol]
      rw [List.cons_append, scan?_step hstep]
      rfl

theorem scan?_printChars (text : List Char) :
    scan? (tokens, .string pieces) (text.flatMap printChar ++ rest) =
      scan? (tokens, .string ((text.map .char).reverse ++ pieces)) rest := by
  induction text generalizing pieces with
  | nil => rfl
  | cons c text ih =>
    rw [List.flatMap_cons, List.append_assoc, scan?_printChar, ih, List.map_cons,
      List.reverse_cons, List.append_assoc]
    rfl

theorem textOfPieces?_char (text : List Char) : textOfPieces? (text.map .char) = some text := by
  induction text with
  | nil => rfl
  | cons c text ih => rw [List.map_cons, textOfPieces?, ih, Option.map_some]

theorem scan?_printText (text : String) :
    scan? (tokens, .between) (printText (some text) ++ rest) =
      scan? (.string (some text) :: tokens, .between) rest := by
  have hend : Scan.step? (.string ((text.toList.map Piece.char).reverse ++ [])) '"' =
      some ([.string (some text)], .between) := by
    rw [Scan.step?, if_pos rfl, List.append_nil, List.reverse_reverse, textOfPieces?_char,
      Option.map_some, String.ofList_toList]
  rw [printText, Option.getD_some, List.cons_append, List.append_assoc, List.singleton_append,
    scan?_step (rfl : Scan.step? .between '"' = some ([], .string [])), scan?_printChars,
    scan?_step hend]
  rfl

/-! ### Numbers -/

/-- A character that cannot stand inside a number. -/
def Breaks (c : Char) : Prop := ∀ phase : NumberPhase, phase.next? c = none

/-- A text that breaks off a number before it. -/
def BreaksOff (text : List Char) : Prop := ∀ c ∈ text.head?, Breaks c

theorem breaksOff_cons {c : Char} (h : Breaks c) (text : List Char) : BreaksOff (c :: text) := by
  intro d hd
  obtain rfl : c = d := Option.some.inj hd
  exact h

theorem breaks_comma : Breaks ',' := by
  intro phase
  cases phase <;> rfl

theorem breaks_closeBracket : Breaks ']' := by
  intro phase
  cases phase <;> rfl

theorem breaks_closeBrace : Breaks '}' := by
  intro phase
  cases phase <;> rfl

/-- The rest of a number, once it has begun. -/
theorem scan?_digits {digits read : List Char} {phase final : NumberPhase}
    (hdigits : digits.foldlM NumberPhase.next? phase = some final) (hfinal : final.complete = true)
    (hrest : BreaksOff rest) :
    scan? (tokens, .number phase read) (digits ++ rest) =
      scan? (.number (read.reverse ++ digits) :: tokens, .between) rest := by
  induction digits generalizing phase read with
  | nil =>
    obtain rfl : phase = final := Option.some.inj hdigits
    rw [List.append_nil, List.nil_append]
    cases rest with
    | nil => simp [scan?, Scan.finish?, hfinal]
    | cons c text =>
      -- The number is complete when the first character after it is read.
      have hbreak : phase.next? c = none := hrest c rfl phase
      have hstep : (Scan.number phase read).step? c =
          (Scan.first? c).map fun (new, s) => (.number read.reverse :: new, s) := by
        simp only [Scan.step?, hbreak, hfinal, if_true]
      have hbetween : Scan.step? .between c = Scan.first? c := rfl
      simp only [scan?_cons, Scan.push?, hstep, hbetween]
      cases Scan.first? c with
      | none => rfl
      | some found => simp
  | cons c digits ih =>
    rw [List.foldlM_cons, Option.bind_eq_bind, Option.bind_eq_some_iff] at hdigits
    obtain ⟨next, hnext, hmore⟩ := hdigits
    have hstep : Scan.step? (.number phase read) c = some ([], .number next (c :: read)) := by
      rw [Scan.step?, hnext]
    rw [List.cons_append, scan?_step hstep, List.reverse_nil, List.nil_append, ih hmore]
    simp

/-- A character that starts a number is the first of no other token. -/
theorem first?_of_next? {c : Char} {phase : NumberPhase}
    (h : NumberPhase.sign.next? c = some phase) :
    Scan.first? c = some ([], .number phase [c]) := by
  unfold Scan.first?
  split
  case h_16 => rw [h, Option.map_some]
  all_goals exact absurd h (by simp [NumberPhase.next?, Char.isDigit])

theorem scan?_number {literal : List Char} (h : isNumber literal = true) (hrest : BreaksOff rest) :
    scan? (tokens, .between) (literal ++ rest) =
      scan? (.number literal :: tokens, .between) rest := by
  simp only [isNumber, Option.any_eq_true] at h
  obtain ⟨final, hdigits, hfinal⟩ := h
  split at hdigits
  · rename_i digits
    rw [List.cons_append,
      scan?_step (rfl : Scan.step? .between '-' = some ([], .number .sign ['-'])),
      scan?_digits hdigits hfinal hrest]
    rfl
  · cases literal with
    | nil =>
      obtain rfl : NumberPhase.sign = final := Option.some.inj hdigits
      cases hfinal
    | cons c digits =>
      rw [List.foldlM_cons, Option.bind_eq_bind, Option.bind_eq_some_iff] at hdigits
      obtain ⟨phase, hphase, hmore⟩ := hdigits
      have hstep : Scan.step? .between c = some ([], .number phase [c]) := first?_of_next? hphase
      rw [List.cons_append, scan?_step hstep, List.reverse_nil, List.nil_append,
        scan?_digits hmore hfinal hrest]
      rfl

/-! ### Values -/

/-- The rest of a word, once it has begun. -/
theorem scan?_word {token : Token} {word : List Char} (h : word ≠ []) :
    scan? (tokens, .word word token) (word ++ rest) = scan? (token :: tokens, .between) rest := by
  induction word with
  | nil => exact absurd rfl h
  | cons c word ih =>
    cases word with
    | nil =>
      have hstep : Scan.step? (.word [c] token) c = some ([token], .between) := by
        rw [Scan.step?, if_pos rfl]
      rw [List.singleton_append, scan?_step hstep]
      rfl
    | cons d word =>
      have hstep : Scan.step? (.word (c :: d :: word) token) c =
          some ([], .word (d :: word) token) := by
        rw [Scan.step?, if_pos rfl]
        exact List.cons_ne_nil d word
      rw [List.cons_append, scan?_step hstep]
      exact ih (List.cons_ne_nil d word)

/-- A mark that is a token by itself. -/
theorem scan?_mark {c : Char} {token : Token} (h : Scan.first? c = some ([token], .between)) :
    scan? (tokens, .between) (c :: rest) = scan? (token :: tokens, .between) rest :=
  scan?_step (s := .between) h tokens rest

/-- What comes after an item begins with a comma or a bracket. -/
theorem breaksOff_printItems (items : List Json) (rest : List Char) :
    BreaksOff (printItems items ++ rest) := by
  cases items with
  | nil => exact breaksOff_cons breaks_closeBracket _
  | cons item items => exact breaksOff_cons breaks_comma _

theorem breaksOff_printMembers (members : List (Option String × Json)) (rest : List Char) :
    BreaksOff (printMembers members ++ rest) := by
  cases members with
  | nil => exact breaksOff_cons breaks_closeBrace _
  | cons member members => exact breaksOff_cons breaks_comma _

mutual

/-- The scanner finds the tokens of a value in its text, whatever comes after it. -/
theorem scan?_print (j : Json) (tokens : List Token) (rest : List Char)
    (h : j.wellFormed isNumber = true) (hrest : BreaksOff rest) :
    scan? (tokens, .between) (j.print ++ rest) =
      scan? (j.tokens.reverse ++ tokens, .between) rest := by
  match j with
  | .null =>
    have hstep : Scan.step? .between 'n' = some ([], .word ['u', 'l', 'l'] .null) := rfl
    exact (scan?_step hstep tokens _).trans (scan?_word (List.cons_ne_nil _ _))
  | .bool true =>
    have hstep : Scan.step? .between 't' = some ([], .word ['r', 'u', 'e'] (.bool true)) := rfl
    exact (scan?_step hstep tokens _).trans (scan?_word (List.cons_ne_nil _ _))
  | .bool false =>
    have hstep : Scan.step? .between 'f' =
      some ([], .word ['a', 'l', 's', 'e'] (.bool false)) := rfl
    exact (scan?_step hstep tokens _).trans (scan?_word (List.cons_ne_nil _ _))
  | .number literal => exact scan?_number h hrest
  | .string text =>
    obtain ⟨text, rfl⟩ := Option.isSome_iff_exists.mp h
    exact scan?_printText text
  | .array [] => exact (scan?_mark rfl).trans (scan?_mark rfl)
  | .array (item :: items) =>
    rw [wellFormed, wellFormedItems, Bool.and_eq_true] at h
    rw [print, Json.tokens, List.cons_append, List.append_assoc, scan?_mark rfl,
      scan?_print item _ _ h.1 (breaksOff_printItems items rest), scan?_printItems items _ _ h.2]
    simp
  | .object [] => exact (scan?_mark rfl).trans (scan?_mark rfl)
  | .object ((none, value) :: members) =>
    rw [wellFormed, wellFormedMembers] at h
    cases h
  | .object ((some key, value) :: members) =>
    rw [wellFormed, wellFormedMembers, Bool.and_eq_true, Bool.and_eq_true] at h
    rw [print, Json.tokens, List.cons_append, List.append_assoc, List.cons_append,
      List.append_assoc, scan?_mark rfl, scan?_printText, scan?_mark rfl,
      scan?_print value _ _ h.1.2 (breaksOff_printMembers members rest),
      scan?_printMembers members _ _ h.2]
    simp

theorem scan?_printItems (items : List Json) (tokens : List Token) (rest : List Char)
    (h : wellFormedItems isNumber items = true) :
    scan? (tokens, .between) (printItems items ++ rest) =
      scan? ((itemTokens items).reverse ++ tokens, .between) rest := by
  match items with
  | [] => exact scan?_mark rfl
  | item :: items =>
    rw [wellFormedItems, Bool.and_eq_true] at h
    rw [printItems, itemTokens, List.cons_append, List.append_assoc, scan?_mark rfl,
      scan?_print item _ _ h.1 (breaksOff_printItems items rest), scan?_printItems items _ _ h.2]
    simp

theorem scan?_printMembers (members : List (Option String × Json)) (tokens : List Token)
    (rest : List Char) (h : wellFormedMembers isNumber members = true) :
    scan? (tokens, .between) (printMembers members ++ rest) =
      scan? ((memberTokens members).reverse ++ tokens, .between) rest := by
  match members with
  | [] => exact scan?_mark rfl
  | (none, value) :: members =>
    rw [wellFormedMembers] at h
    cases h
  | (some key, value) :: members =>
    rw [wellFormedMembers, Bool.and_eq_true, Bool.and_eq_true] at h
    rw [printMembers, memberTokens, List.cons_append, List.append_assoc, List.cons_append,
      List.append_assoc, scan?_mark rfl, scan?_printText, scan?_mark rfl,
      scan?_print value _ _ h.1.2 (breaksOff_printMembers members rest),
      scan?_printMembers members _ _ h.2]
    simp

end

/-- The characters that may stand between tokens. -/
def blanks : List Char := [' ', '\t', '\n', '\r']

theorem breaksOff_blanks {text : List Char} (h : ∀ c ∈ text, c ∈ blanks) : BreaksOff text := by
  have hbreaks : ∀ c ∈ blanks, Breaks c := by
    intro c hc phase
    simp only [blanks, List.mem_cons, List.not_mem_nil, or_false] at hc
    rcases hc with rfl | rfl | rfl | rfl <;> cases phase <;> rfl
  exact fun c hc => hbreaks c (h c (List.mem_of_mem_head? hc))

theorem scan?_blanks {text : List Char} (h : ∀ c ∈ text, c ∈ blanks) :
    scan? (tokens, .between) text = some tokens.reverse := by
  induction text with
  | nil => rfl
  | cons c text ih =>
    rw [List.forall_mem_cons] at h
    have hstep : Scan.step? .between c = some ([], .between) := by
      have hc := h.1
      simp only [blanks, List.mem_cons, List.not_mem_nil, or_false] at hc
      rcases hc with rfl | rfl | rfl | rfl <;> rfl
    rw [scan?_step hstep]
    exact ih h.2

/-- The tokens of a value that is printed with blanks after it. -/
theorem tokens?_print {j : Json} (h : j.wellFormed isNumber = true) {text : List Char}
    (htext : ∀ c ∈ text, c ∈ blanks) : tokens? (j.print ++ text) = some j.tokens := by
  rw [tokens?_eq_scan?, scan?_print j [] text h (breaksOff_blanks htext), scan?_blanks htext,
    List.append_nil, List.reverse_reverse]

end PinBench.Json
