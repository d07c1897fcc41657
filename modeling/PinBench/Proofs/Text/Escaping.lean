import PinBench.Proofs.Text.Utf8
import PinBench.Text.Escape

/-! Escaped texts token by token.  `Reads` is the grammar, over the bytes of a text: an escape where
one starts, and otherwise a byte that stands for itself.  It reads all bytes in one way only
(`Reads.unique`), and a text expands to what its tokens stand for (`exists_reads`), although the
text is expanded by characters and the tokens may cut one.  In the other direction a `Spelling` is a
way to write some bytes, and `expand_spellings` says that spellings written one after another expand
to their bytes: none changes what another stands for. -/

namespace PinBench.Escape

/-! ### The grammar -/

/-- The letters of the short escapes, with the bytes that they stand for. -/
def shorts : List (Char × UInt8) := [('n', 10), ('r', 13), ('t', 9), ('\\', 92)]

/-- The byte that some bytes write in base 16: one or more digits of either case, with or without
one `+` in front. -/
def readHex? (slice : List UInt8) : Option UInt8 :=
  let digits := if slice.head? = some '+'.toUInt8 then slice.tail else slice
  match digits.mapM fun b => hexDigit? (Char.ofNat b.toNat) with
  | none | some [] => none
  | some values =>
    let n := values.foldl (fun n d => 16 * n + d) 0
    if n < 256 then some (UInt8.ofNat n) else none

/-- Whether some bytes start with a character or are none. -/
def AtBoundary (bytes : List UInt8) : Prop := ∀ b ∈ bytes.head?, ¬(128 ≤ b.toNat ∧ b.toNat < 192)

/-- A token of an escaped text. -/
inductive Token where
  /-- A backslash and a letter. -/
  | short (letter : Char) (value : UInt8) (known : (letter, value) ∈ shorts)
  /-- A backslash, the letter `x` and two bytes in base 16. -/
  | coded (first second value : UInt8) (known : readHex? [first, second] = some value)
  /-- A byte that stands for itself. -/
  | plain (b : UInt8)

def Token.value : Token → UInt8
  | .short _ value _ => value
  | .coded _ _ value _ => value
  | .plain b => b

/-- Some bytes start with an escape, after which the rest follows. -/
inductive Escaped : List UInt8 → Token → List UInt8 → Prop
  | short {letter : Char} {value : UInt8} (known : (letter, value) ∈ shorts) (rest : List UInt8) :
      Escaped ('\\'.toUInt8 :: letter.toUInt8 :: rest) (.short letter value known) rest
  | coded {first second value : UInt8} (known : readHex? [first, second] = some value)
      {rest : List UInt8} (hend : AtBoundary rest) :
      Escaped ('\\'.toUInt8 :: 'x'.toUInt8 :: first :: second :: rest)
        (.coded first second value known) rest

/-- The tokens of some bytes, read from left to right.  A byte stands for itself only where no
escape starts. -/
inductive Reads : List UInt8 → List Token → Prop
  | nil : Reads [] []
  | escaped {bytes rest : List UInt8} {t : Token} {tokens : List Token} :
      Escaped bytes t rest → Reads rest tokens → Reads bytes (t :: tokens)
  | plain {b : UInt8} {rest : List UInt8} {tokens : List Token} :
      (∀ t after, ¬Escaped (b :: rest) t after) → Reads rest tokens →
        Reads (b :: rest) (.plain b :: tokens)

/-! ### One reading -/

theorem Escaped.head? {bytes after : List UInt8} {t : Token} (h : Escaped bytes t after) :
    bytes.head? = some '\\'.toUInt8 := by
  cases h <;> rfl

theorem letter_lt {letter : Char} {value : UInt8} (h : (letter, value) ∈ shorts) :
    letter.toNat < 128 := by
  have hall : ∀ p ∈ shorts, p.1.toNat < 128 := by decide
  exact hall _ h

theorem letter_ne_x {letter : Char} {value : UInt8} (h : (letter, value) ∈ shorts) :
    letter.toUInt8 ≠ 'x'.toUInt8 := by
  have hall : ∀ p ∈ shorts, p.1.toUInt8 ≠ 'x'.toUInt8 := by decide
  exact hall _ h

theorem short_unique {l m : Char} {v w : UInt8} (hl : (l, v) ∈ shorts) (hm : (m, w) ∈ shorts)
    (h : l.toUInt8 = m.toUInt8) : l = m ∧ v = w := by
  have hall : ∀ p ∈ shorts, ∀ q ∈ shorts, p.1.toUInt8 = q.1.toUInt8 → p.1 = q.1 ∧ p.2 = q.2 := by
    decide
  exact hall _ hl _ hm h

theorem Escaped.unique {bytes rest other : List UInt8} {t u : Token} (ht : Escaped bytes t rest)
    (hu : Escaped bytes u other) : t = u ∧ rest = other := by
  cases ht with
  | @short letter value known rest =>
    generalize hbytes : '\\'.toUInt8 :: letter.toUInt8 :: rest = bytes at hu
    cases hu with
    | short known' =>
      rw [List.cons.injEq, List.cons.injEq] at hbytes
      obtain ⟨rfl, rfl⟩ := short_unique known known' hbytes.2.1
      exact ⟨rfl, hbytes.2.2⟩
    | coded =>
      rw [List.cons.injEq, List.cons.injEq] at hbytes
      exact absurd hbytes.2.1 (letter_ne_x known)
  | @coded first second value known rest hend =>
    generalize hbytes : '\\'.toUInt8 :: 'x'.toUInt8 :: first :: second :: rest = bytes at hu
    cases hu with
    | short known' =>
      rw [List.cons.injEq, List.cons.injEq] at hbytes
      exact absurd hbytes.2.1.symm (letter_ne_x known')
    | coded known' =>
      simp only [List.cons.injEq, true_and] at hbytes
      obtain ⟨rfl, rfl, rfl⟩ := hbytes
      obtain rfl := Option.some_inj.mp (known.symm.trans known')
      exact ⟨rfl, rfl⟩

theorem Reads.unique {bytes : List UInt8} {tokens others : List Token} (h : Reads bytes tokens)
    (h' : Reads bytes others) : others = tokens := by
  induction h generalizing others with
  | nil =>
    cases h' with
    | nil => rfl
    | escaped h => nomatch h
  | escaped ht _ ih =>
    cases h' with
    | nil => nomatch ht
    | escaped hu hrest =>
      obtain ⟨rfl, rfl⟩ := ht.unique hu
      rw [ih hrest]
    | plain hnone _ => exact absurd ht (hnone _ _)
  | plain hnone _ ih =>
    cases h' with
    | escaped hu _ => exact absurd hu (hnone _ _)
    | plain _ hrest => rw [ih hrest]

/-- Bytes from 128 on are no part of an escape. -/
theorem Reads.large {bytes rest : List UInt8} {tokens : List Token} (h : Reads rest tokens)
    (hlarge : ∀ b ∈ bytes, 128 ≤ b.toNat) : Reads (bytes ++ rest) (bytes.map .plain ++ tokens) := by
  induction bytes with
  | nil => exact h
  | cons b bytes ih =>
    obtain ⟨hb, hbytes⟩ := List.forall_mem_cons.mp hlarge
    refine .plain (fun t after hescaped => ?_) (ih hbytes)
    have hhead := Option.some_inj.mp hescaped.head?
    rw [hhead] at hb
    contradiction

/-! ### Characters and bytes -/

theorem encode_cons_of_lt {c : Char} (h : c.toNat < 128) (rest : List Char) :
    Utf8.encode (c :: rest) = c.toUInt8 :: Utf8.encode rest := by
  rw [Utf8.encode, List.flatMap_cons, Utf8.encodeChar_of_lt h]
  rfl

theorem atBoundary_encode (text : List Char) : AtBoundary (Utf8.encode text) := by
  cases text with
  | nil => intro b hb; contradiction
  | cons c rest =>
    intro b hb
    by_cases h : c.toNat < 128
    · rw [encode_cons_of_lt h, List.head?_cons, Option.mem_some_iff] at hb
      rw [← hb, Utf8.toNat_toUInt8 h]
      omega
    · obtain ⟨first, more, hencode, hfirst, -⟩ := Utf8.encodeChar_of_le (Nat.le_of_not_lt h)
      rw [Utf8.encode, List.flatMap_cons, hencode, List.cons_append, List.head?_cons,
        Option.mem_some_iff] at hb
      rw [← hb]
      omega

/-- A byte below 128 at the front of a text is its first character. -/
theorem cons_of_encode {text : List Char} {c : Char} {rest : List UInt8} (h : c.toNat < 128)
    (hencode : Utf8.encode text = c.toUInt8 :: rest) :
    ∃ more, text = c :: more ∧ Utf8.encode more = rest := by
  have hbyte := Utf8.toNat_toUInt8 h
  cases text with
  | nil => contradiction
  | cons d more =>
    by_cases hd : d.toNat < 128
    · rw [encode_cons_of_lt hd, List.cons.injEq] at hencode
      have hsame : d.toNat = c.toNat := by
        rw [← Utf8.toNat_toUInt8 hd, hencode.1, hbyte]
      have heq : d = c := by
        rw [← Char.ofNat_toNat d, hsame, Char.ofNat_toNat]
      exact ⟨more, by rw [heq], hencode.2⟩
    · obtain ⟨first, bytes, hfirst, hlarge, -⟩ := Utf8.encodeChar_of_le (Nat.le_of_not_lt hd)
      rw [Utf8.encode, List.flatMap_cons, hfirst, List.cons_append, List.cons.injEq] at hencode
      rw [hencode.1] at hlarge
      omega

theorem hexDigit?_lt {c : Char} {n : Nat} (h : hexDigit? c = some n) : c.toNat < 128 ∧ n < 16 := by
  have hle : ∀ a b : Char, a ≤ b ↔ a.toNat ≤ b.toNat := by
    intro a b
    rw [Char.le_def, UInt32.le_iff_toNat_le]
    rfl
  simp only [hexDigit?, hle, Char.reduceToNat] at h
  split at h
  · rw [Option.some_inj] at h
    omega
  · split at h
    · rw [Option.some_inj] at h
      omega
    · split at h
      · rw [Option.some_inj] at h
        omega
      · cases h

theorem toNat_ofNat_byte (b : UInt8) : (Char.ofNat b.toNat).toNat = b.toNat := by
  have hb := b.toNat_lt
  have hvalid : b.toNat.isValidChar := by
    left
    omega
  rw [Char.ofNat, dif_pos hvalid]
  rfl

theorem toUInt8_ofNat_byte (b : UInt8) : (Char.ofNat b.toNat).toUInt8 = b := by
  have hbyte : (Char.ofNat b.toNat).toUInt8 = UInt8.ofNat (Char.ofNat b.toNat).toNat := rfl
  rw [hbyte, toNat_ofNat_byte, UInt8.ofNat_toNat]

theorem readHex?_pair (first second : UInt8) :
    readHex? [first, second] = hexByte? (Char.ofNat first.toNat) (Char.ofNat second.toNat) := by
  have hplus : Char.ofNat first.toNat = '+' ↔ first = '+'.toUInt8 := by
    constructor
    · intro h
      apply UInt8.toNat_inj.mp
      rw [← toNat_ofNat_byte, h]
      rfl
    · rintro rfl
      rfl
  by_cases h : first = '+'.toUInt8
  · rw [hexByte?, if_pos (hplus.mpr h), readHex?, h]
    simp only [List.head?_cons, if_true, List.tail_cons, List.mapM_cons, List.mapM_nil]
    cases hlow : hexDigit? (Char.ofNat second.toNat) with
    | none => rfl
    | some low =>
      have hlt := (hexDigit?_lt hlow).2
      show (if 16 * 0 + low < 256 then some (UInt8.ofNat (16 * 0 + low)) else none) =
        some (UInt8.ofNat low)
      rw [if_pos (by omega), Nat.mul_zero, Nat.zero_add]
  · rw [hexByte?, if_neg (fun heq => h (hplus.mp heq)), readHex?]
    have hhead : ¬[first, second].head? = some '+'.toUInt8 := by
      simpa using h
    simp only [hhead, if_false, List.mapM_cons, List.mapM_nil]
    cases hhigh : hexDigit? (Char.ofNat first.toNat) with
    | none => rfl
    | some high =>
      cases hlow : hexDigit? (Char.ofNat second.toNat) with
      | none => rfl
      | some low =>
        have hhighlt := (hexDigit?_lt hhigh).2
        have hlowlt := (hexDigit?_lt hlow).2
        show (if 16 * (16 * 0 + high) + low < 256 then
          some (UInt8.ofNat (16 * (16 * 0 + high) + low)) else none) =
            some (UInt8.ofNat (16 * high + low))
        rw [if_pos (by omega), Nat.mul_zero, Nat.zero_add]

theorem hexByte?_lt {first second : Char} {value : UInt8}
    (h : hexByte? first second = some value) : first.toNat < 128 ∧ second.toNat < 128 := by
  unfold hexByte? at h
  split at h
  · rename_i hplus
    obtain ⟨low, hlow, -⟩ := Option.map_eq_some_iff.mp h
    exact ⟨by rw [hplus]; decide, (hexDigit?_lt hlow).1⟩
  · split at h
    · rename_i hhigh hlow
      exact ⟨(hexDigit?_lt hhigh).1, (hexDigit?_lt hlow).1⟩
    · contradiction

theorem readHex?_of_hexByte? {first second : Char} {value : UInt8}
    (h : hexByte? first second = some value) :
    readHex? [first.toUInt8, second.toUInt8] = some value := by
  obtain ⟨hfirst, hsecond⟩ := hexByte?_lt h
  rw [readHex?_pair, Utf8.toNat_toUInt8 hfirst, Utf8.toNat_toUInt8 hsecond, Char.ofNat_toNat,
    Char.ofNat_toNat, h]

/-! ### Where an escape starts -/

/-- Whether a text starts with an escape. -/
def Starts (text : List Char) : Prop :=
  (∃ letter value rest, (letter, value) ∈ shorts ∧ text = '\\' :: letter :: rest) ∨
    ∃ first second value rest, hexByte? first second = some value ∧
      text = '\\' :: 'x' :: first :: second :: rest

theorem expand_short {letter : Char} {value : UInt8} (h : (letter, value) ∈ shorts)
    (rest : List Char) : expand ('\\' :: letter :: rest) = value :: expand rest := by
  simp only [shorts, List.mem_cons, Prod.mk.injEq, List.not_mem_nil, or_false] at h
  rcases h with ⟨rfl, rfl⟩ | ⟨rfl, rfl⟩ | ⟨rfl, rfl⟩ | ⟨rfl, rfl⟩ <;> rw [expand]

theorem expand_coded {first second : Char} {value : UInt8} (h : hexByte? first second = some value)
    (rest : List Char) :
    expand ('\\' :: 'x' :: first :: second :: rest) = value :: expand rest := by
  rw [expand, h]

theorem expand_verbatim {c : Char} {rest : List Char} (h : ¬Starts (c :: rest)) :
    expand (c :: rest) = String.utf8EncodeChar c ++ expand rest := by
  have hshort : ∀ letter value more, (letter, value) ∈ shorts → c = '\\' →
      rest = letter :: more → False := by
    rintro letter value more known rfl rfl
    exact h (.inl ⟨letter, value, more, known, rfl⟩)
  by_cases hx : c = '\\' ∧ ∃ first second more, rest = 'x' :: first :: second :: more
  · obtain ⟨rfl, first, second, more, rfl⟩ := hx
    rw [expand]
    cases hbyte : hexByte? first second with
    | none => rfl
    | some value => exact absurd (.inr ⟨first, second, value, more, hbyte, rfl⟩) h
  · rw [expand]
    · exact fun more => hshort 'n' 10 more (by decide)
    · exact fun more => hshort 'r' 13 more (by decide)
    · exact fun more => hshort 't' 9 more (by decide)
    · exact fun more => hshort '\\' 92 more (by decide)
    · exact fun first second more hc hrest => hx ⟨hc, first, second, more, hrest⟩

/-- An escape among the bytes is one of the text. -/
theorem starts_of_escaped {text : List Char} {t : Token} {after : List UInt8}
    (h : Escaped (Utf8.encode text) t after) : Starts text := by
  generalize hencode : Utf8.encode text = bytes at h
  cases h with
  | @short letter value known =>
    obtain ⟨more, rfl, hmore⟩ := cons_of_encode (by decide) hencode
    obtain ⟨rest, rfl, -⟩ := cons_of_encode (letter_lt known) hmore
    exact .inl ⟨letter, value, rest, known, rfl⟩
  | @coded first second value known =>
    rw [readHex?_pair] at known
    obtain ⟨hfirst, hsecond⟩ := hexByte?_lt known
    rw [← toUInt8_ofNat_byte first, ← toUInt8_ofNat_byte second] at hencode
    obtain ⟨tail, rfl, htail⟩ := cons_of_encode (by decide) hencode
    obtain ⟨digits, rfl, hdigits⟩ := cons_of_encode (by decide) htail
    obtain ⟨digit, rfl, hdigit⟩ := cons_of_encode hfirst hdigits
    obtain ⟨rest, rfl, -⟩ := cons_of_encode hsecond hdigit
    exact .inr ⟨_, _, value, rest, known, rfl⟩

/-! ### The tokens of a text -/

section Tokens

variable {rest : List Char} {tokens : List Token} (h : Reads (Utf8.encode rest) tokens)
include h

theorem Reads.short {letter : Char} {value : UInt8} (known : (letter, value) ∈ shorts) :
    Reads (Utf8.encode ('\\' :: letter :: rest)) (.short letter value known :: tokens) := by
  rw [encode_cons_of_lt (by decide), encode_cons_of_lt (letter_lt known)]
  exact .escaped (.short known _) h

theorem Reads.coded {first second : Char} {value : UInt8}
    (known : hexByte? first second = some value) :
    Reads (Utf8.encode ('\\' :: 'x' :: first :: second :: rest))
      (.coded first.toUInt8 second.toUInt8 value (readHex?_of_hexByte? known) :: tokens) := by
  obtain ⟨hfirst, hsecond⟩ := hexByte?_lt known
  rw [encode_cons_of_lt (by decide), encode_cons_of_lt (by decide), encode_cons_of_lt hfirst,
    encode_cons_of_lt hsecond]
  exact .escaped (.coded _ (atBoundary_encode rest)) h

/-- A character that starts no escape is read byte by byte: no escape starts inside it. -/
theorem Reads.verbatim {c : Char} (hnot : ¬Starts (c :: rest)) :
    Reads (Utf8.encode (c :: rest)) ((String.utf8EncodeChar c).map .plain ++ tokens) := by
  by_cases hc : c.toNat < 128
  · have hnone : ∀ t after, ¬Escaped (Utf8.encode (c :: rest)) t after :=
      fun t after hescaped => hnot (starts_of_escaped hescaped)
    rw [encode_cons_of_lt hc] at hnone ⊢
    rw [Utf8.encodeChar_of_lt hc]
    exact .plain hnone h
  · obtain ⟨b, more, hencode, hb, hmore⟩ := Utf8.encodeChar_of_le (Nat.le_of_not_lt hc)
    rw [Utf8.encode, List.flatMap_cons]
    apply h.large
    rw [hencode]
    exact List.forall_mem_cons.mpr ⟨by omega, hmore⟩

end Tokens

/-- What a text expands to is what its tokens stand for.  The induction is on the length, with one
case for each way in which a text can start. -/
theorem exists_reads (text : List Char) :
    ∃ tokens, Reads (Utf8.encode text) tokens ∧ expand text = tokens.map Token.value := by
  induction hlen : text.length using Nat.strongRecOn generalizing text with
  | _ n ih =>
    have hih : ∀ rest : List Char, rest.length < text.length →
        ∃ tokens, Reads (Utf8.encode rest) tokens ∧ expand rest = tokens.map Token.value := by
      intro rest hlt
      exact ih rest.length (by omega) rest rfl
    cases text with
    | nil => exact ⟨[], .nil, by rw [expand]; rfl⟩
    | cons c rest =>
      by_cases hstarts : Starts (c :: rest)
      · rcases hstarts with ⟨letter, value, more, known, heq⟩ |
          ⟨first, second, value, more, known, heq⟩
        · rw [heq] at hih ⊢
          obtain ⟨tokens, hreads, hvalues⟩ := hih more (by simp only [List.length_cons]; omega)
          refine ⟨_, hreads.short known, ?_⟩
          rw [expand_short known, hvalues]
          rfl
        · rw [heq] at hih ⊢
          obtain ⟨tokens, hreads, hvalues⟩ := hih more (by simp only [List.length_cons]; omega)
          refine ⟨_, hreads.coded known, ?_⟩
          rw [expand_coded known, hvalues]
          rfl
      · obtain ⟨tokens, hreads, hvalues⟩ := hih rest (Nat.lt_succ_self _)
        have hplain : Token.value ∘ Token.plain = id := rfl
        refine ⟨_, hreads.verbatim hstarts, ?_⟩
        rw [expand_verbatim hstarts, hvalues, List.map_append, List.map_map, hplain, List.map_id]

/-! ### Spellings -/

/-- A hexadecimal digit in either case. -/
def digit (upper : Bool) (n : Nat) : Char :=
  if n < 10 then Char.ofNat ('0'.toNat + n)
  else Char.ofNat ((if upper then 'A' else 'a').toNat + (n - 10))

/-- A piece of an escaped text, and how it is written. -/
inductive Spelling where
  /-- A backslash and a letter. -/
  | short (letter : Char) (value : UInt8) (known : (letter, value) ∈ shorts)
  /-- A byte in base 16, each digit in either case. -/
  | coded (b : UInt8) (upperHigh upperLow : Bool)
  /-- A character that stands for its own bytes. -/
  | verbatim (c : Char) (hc : c ≠ '\\')

def Spelling.text : Spelling → List Char
  | .short letter _ _ => ['\\', letter]
  | .coded b upperHigh upperLow =>
    ['\\', 'x', digit upperHigh (b.toNat / 16), digit upperLow (b.toNat % 16)]
  | .verbatim c _ => [c]

def Spelling.bytes : Spelling → List UInt8
  | .short _ value _ => [value]
  | .coded b _ _ => [b]
  | .verbatim c _ => String.utf8EncodeChar c

theorem hexByte?_digits (b : UInt8) (upperHigh upperLow : Bool) :
    hexByte? (digit upperHigh (b.toNat / 16)) (digit upperLow (b.toNat % 16)) = some b := by
  have hb := b.toNat_lt
  have hdigit : ∀ upper, ∀ n < 16, hexDigit? (digit upper n) = some n := by decide
  have hplus : ∀ upper, ∀ n < 16, digit upper n ≠ '+' := by decide
  rw [hexByte?, if_neg (hplus _ _ (by omega)), hdigit _ _ (by omega), hdigit _ _ (by omega)]
  have hsum : 16 * (b.toNat / 16) + b.toNat % 16 = b.toNat := Nat.div_add_mod _ _
  simp only [hsum, UInt8.ofNat_toNat]

theorem expand_spelling (s : Spelling) (rest : List Char) :
    expand (s.text ++ rest) = s.bytes ++ expand rest := by
  cases s with
  | short letter value known => exact expand_short known rest
  | coded b upperHigh upperLow => exact expand_coded (hexByte?_digits b upperHigh upperLow) rest
  | verbatim c hc =>
    apply expand_verbatim
    rintro (⟨letter, value, more, -, heq⟩ | ⟨first, second, value, more, -, heq⟩)
    · exact hc (List.cons.inj heq).1
    · exact hc (List.cons.inj heq).1

theorem expand_spellings (spellings : List Spelling) :
    expand (spellings.flatMap Spelling.text) = spellings.flatMap Spelling.bytes := by
  induction spellings with
  | nil => rw [List.flatMap_nil, expand]; rfl
  | cons s spellings ih => rw [List.flatMap_cons, expand_spelling, ih, List.flatMap_cons]

/-- The escapes of a text.  The bytes of every text are read as tokens in one way, and the text
expands to the values of these tokens in order.  So every list of bytes can be spelled, and any
spellings, written one after another, expand to exactly the bytes that they spell. -/
theorem texts_expand_by_token :
    (∀ text : List Char, ∃ tokens,
      (∀ others, Reads (Utf8.encode text) others ↔ others = tokens) ∧
      expand text = tokens.map Token.value) ∧
    (∀ bytes : List UInt8, ∃ spellings : List Spelling,
      spellings.flatMap Spelling.bytes = bytes) ∧
    ∀ spellings : List Spelling,
      expand (spellings.flatMap Spelling.text) = spellings.flatMap Spelling.bytes := by
  refine ⟨fun text => ?_, fun bytes => ?_, expand_spellings⟩
  · obtain ⟨tokens, hreads, hvalues⟩ := exists_reads text
    refine ⟨tokens, fun others => ⟨hreads.unique, ?_⟩, hvalues⟩
    rintro rfl
    exact hreads
  · refine ⟨bytes.map fun b => .coded b false false, ?_⟩
    rw [List.flatMap_map]
    exact List.flatMap_singleton' bytes

/-- A number without its second digit stands for itself, and so does a backslash at the end. -/
example : expand "\\x4\\x4A\\té\\".toList = [92, 120, 52, 74, 9, 195, 169, 92] := by cbv

end PinBench.Escape
