import PinBench.Proofs.Net.OneClient
import PinBench.Telemetry.Server

/-! Lines in a stream of bytes.  `splitLines` undoes `joinLines`, and how a stream is cut in two
makes no difference to its lines.  `fill?` reads on as long as no unfinished line is too long; when
it does, every line is shorter than the limit and one read together, and it never fails on a stream
of short lines. -/

namespace PinBench.Telemetry

/-- The lines of a stream that are complete. -/
def linesOf (bytes : List UInt8) : List (List UInt8) := (splitLines bytes).1

/-- What follows the last complete line of a stream. -/
def unfinished (bytes : List UInt8) : List UInt8 := (splitLines bytes).2

/-- The bytes between line feeds, and those after the last one. -/
def pieces (bytes : List UInt8) : List (List UInt8) := linesOf bytes ++ [unfinished bytes]

/-- Complete lines with their ends, and the start of one more. -/
def joinLines (lines : List (List UInt8)) (rest : List UInt8) : List UInt8 :=
  lines.flatMap (· ++ [10]) ++ rest

theorem splitLines_of_not_mem {bytes : List UInt8} (h : 10 ∉ bytes) :
    splitLines bytes = ([], bytes) := by
  induction bytes with
  | nil => rfl
  | cons b bytes ih =>
    rw [List.mem_cons, not_or] at h
    rw [splitLines, ih h.2]
    simp [Ne.symm h.1]

theorem splitLines_line {line : List UInt8} (h : 10 ∉ line) (bytes : List UInt8) :
    splitLines (line ++ 10 :: bytes) = (line :: linesOf bytes, unfinished bytes) := by
  induction line with
  | nil => simp [splitLines, linesOf, unfinished]
  | cons b line ih =>
    rw [List.mem_cons, not_or] at h
    rw [List.cons_append, splitLines, ih h.2]
    simp [Ne.symm h.1]

theorem splitLines_joinLines {lines : List (List UInt8)} {rest : List UInt8}
    (hlines : ∀ line ∈ lines, 10 ∉ line) (hrest : 10 ∉ rest) :
    splitLines (joinLines lines rest) = (lines, rest) := by
  induction lines with
  | nil => exact splitLines_of_not_mem hrest
  | cons line lines ih =>
    have hcons : joinLines (line :: lines) rest = line ++ 10 :: joinLines lines rest := by
      simp [joinLines]
    rw [hcons, splitLines_line (hlines line List.mem_cons_self)]
    simp only [linesOf, unfinished, ih fun l hl => hlines l (List.mem_cons_of_mem _ hl)]

/-- A stream is made of its lines. -/
theorem exists_joinLines (bytes : List UInt8) :
    joinLines (linesOf bytes) (unfinished bytes) = bytes ∧
      (∀ line ∈ linesOf bytes, 10 ∉ line) ∧ 10 ∉ unfinished bytes := by
  induction bytes with
  | nil => simp [linesOf, unfinished, splitLines, joinLines]
  | cons b bytes ih =>
    unfold linesOf unfinished at ih ⊢
    rw [splitLines]
    rcases hsplit : splitLines bytes with ⟨lines, rest⟩
    rw [hsplit] at ih
    obtain ⟨hjoin, hlines, hrest⟩ := ih
    by_cases hb : b = 10
    · subst hb
      simp_all [joinLines]
    · cases lines with
      | nil => simp_all [joinLines, Ne.symm hb]
      | cons line lines => simp_all [joinLines, Ne.symm hb]

theorem not_mem_unfinished (bytes : List UInt8) : 10 ∉ unfinished bytes :=
  (exists_joinLines bytes).2.2

/-- What is unfinished is all that matters of a stream for what comes after it. -/
theorem splitLines_append (bytes more : List UInt8) :
    splitLines (bytes ++ more) =
      (linesOf bytes ++ linesOf (unfinished bytes ++ more),
        unfinished (unfinished bytes ++ more)) := by
  obtain ⟨hjoin, hlines, -⟩ := exists_joinLines bytes
  obtain ⟨hjoin', hlines', hrest'⟩ := exists_joinLines (unfinished bytes ++ more)
  have hwhole : bytes ++ more = joinLines (linesOf bytes ++ linesOf (unfinished bytes ++ more))
      (unfinished (unfinished bytes ++ more)) :=
    calc bytes ++ more
      _ = joinLines (linesOf bytes) (unfinished bytes) ++ more := by rw [hjoin]
      _ = joinLines (linesOf bytes) (unfinished bytes ++ more) := by simp [joinLines]
      _ = joinLines (linesOf bytes) (joinLines (linesOf (unfinished bytes ++ more))
          (unfinished (unfinished bytes ++ more))) := by rw [hjoin']
      _ = _ := by simp [joinLines]
  conv => lhs; rw [hwhole]
  refine splitLines_joinLines (fun line hline => ?_) hrest'
  rcases List.mem_append.mp hline with hold | hnew
  · exact hlines line hold
  · exact hlines' line hnew

theorem linesOf_append (bytes more : List UInt8) :
    linesOf (bytes ++ more) = linesOf bytes ++ linesOf (unfinished bytes ++ more) := by
  rw [linesOf, splitLines_append]

theorem unfinished_append (bytes more : List UInt8) :
    unfinished (bytes ++ more) = unfinished (unfinished bytes ++ more) := by
  rw [unfinished, splitLines_append]

/-- The bytes that arrive after some others complete the lines that come next. -/
theorem drop_linesOf_append (bytes more : List UInt8) :
    (linesOf (bytes ++ more)).drop (linesOf bytes).length = linesOf (unfinished bytes ++ more) := by
  rw [linesOf_append, List.drop_left]

/-- The first piece of a stream starts with whatever holds no line feed. -/
theorem pieces_append_of_not_mem {start : List UInt8} (h : 10 ∉ start) (bytes : List UInt8) :
    ∃ first rest, pieces (start ++ bytes) = (start ++ first) :: rest := by
  obtain ⟨hjoin, hlines, hrest⟩ := exists_joinLines bytes
  cases hl : linesOf bytes with
  | nil =>
    rw [hl] at hjoin
    have hbytes : unfinished bytes = bytes := hjoin
    have hnot : 10 ∉ start ++ bytes := by
      rw [List.mem_append, not_or]
      exact ⟨h, hbytes ▸ hrest⟩
    exact ⟨bytes, [], by rw [pieces, linesOf, unfinished, splitLines_of_not_mem hnot]; rfl⟩
  | cons line lines =>
    rw [hl] at hjoin hlines
    have hnot : 10 ∉ start ++ line := by
      rw [List.mem_append, not_or]
      exact ⟨h, hlines line List.mem_cons_self⟩
    have hwhole : start ++ bytes = (start ++ line) ++ 10 :: joinLines lines (unfinished bytes) := by
      conv => lhs; rw [← hjoin]
      simp [joinLines]
    exact ⟨line, pieces (joinLines lines (unfinished bytes)), by
      rw [pieces, linesOf, unfinished, hwhole, splitLines_line hnot]; rfl⟩

/-- A line is at least as long as what has been there of it before. -/
theorem length_le_of_pieces {bytes more piece line : List UInt8} {k : Nat}
    (hpiece : (pieces bytes)[k]? = some piece)
    (hline : (linesOf (bytes ++ more))[k]? = some line) : piece.length ≤ line.length := by
  rw [linesOf_append] at hline
  rw [pieces] at hpiece
  rcases Nat.lt_trichotomy k (linesOf bytes).length with hlt | rfl | hgt
  · rw [List.getElem?_append_left hlt] at hpiece hline
    exact Nat.le_of_eq (congrArg List.length (Option.some.inj (hpiece.symm.trans hline)))
  · rw [List.getElem?_append_right (Nat.le_refl _), Nat.sub_self] at hpiece hline
    obtain rfl : unfinished bytes = piece := by simpa using hpiece
    obtain ⟨first, rest, hpieces⟩ := pieces_append_of_not_mem (not_mem_unfinished bytes) more
    cases hlines : linesOf (unfinished bytes ++ more) with
    | nil => simp [hlines] at hline
    | cons head tail =>
      rw [pieces, hlines, List.cons_append, List.cons.injEq] at hpieces
      obtain rfl : head = line := by simpa [hlines] using hline
      rw [hpieces.1, List.length_append]
      omega
  · rw [List.getElem?_eq_none (by simp; omega)] at hpiece
    cases hpiece

/-- Every piece of a stream is at most as long as a line may be. -/
def Short (bytes : List UInt8) : Prop := ∀ piece ∈ pieces bytes, piece.length ≤ maxPendingInput

theorem Short.unfinished_le {bytes : List UInt8} (h : Short bytes) :
    (unfinished bytes).length ≤ maxPendingInput := h _ (by simp [pieces])

theorem pieces_append (bytes more : List UInt8) :
    pieces (bytes ++ more) = linesOf bytes ++ pieces (unfinished bytes ++ more) := by
  rw [pieces, linesOf_append, unfinished_append, List.append_assoc]
  rfl

theorem Short.of_append {bytes more : List UInt8} (h : Short (bytes ++ more)) : Short bytes := by
  obtain ⟨first, rest, hpieces⟩ :=
    pieces_append_of_not_mem (not_mem_unfinished bytes) more
  rw [Short, pieces_append, hpieces] at h
  intro piece hpiece
  rw [pieces, List.mem_append, List.mem_singleton] at hpiece
  rcases hpiece with hline | rfl
  · exact h piece (List.mem_append_left _ hline)
  · have := h (unfinished bytes ++ first) (by simp)
    rw [List.length_append] at this
    omega

/-- A server that has read the start of a stream needs only what is unfinished of it. -/
theorem Short.unfinished_append {bytes more : List UInt8} (h : Short (bytes ++ more)) :
    Short (unfinished bytes ++ more) := by
  rw [Short, pieces_append] at h
  exact fun piece hpiece => h piece (List.mem_append_right _ hpiece)

/-! ### Reading on -/

/-- The length that is checked after each read is that of the unfinished line. -/
theorem length_takeWhile_reverse (bytes : List UInt8) :
    (bytes.reverse.takeWhile (· != 10)).length = (unfinished bytes).length := by
  obtain ⟨hjoin, -, hrest⟩ := exists_joinLines bytes
  have hall : ∀ b ∈ (unfinished bytes).reverse, (b != 10) = true := by
    intro b hb
    simp only [bne_iff_ne, ne_eq]
    rintro rfl
    exact hrest (List.mem_reverse.mp hb)
  have hlast : ((linesOf bytes).flatMap (· ++ [10])).reverse.takeWhile (· != 10) = [] := by
    cases List.eq_nil_or_concat (linesOf bytes) with
    | inl hnil => rw [hnil]; rfl
    | inr hconcat =>
      obtain ⟨lines, line, hconcat⟩ := hconcat
      rw [hconcat]
      simp
  have hreverse : bytes.reverse =
      (unfinished bytes).reverse ++ ((linesOf bytes).flatMap (· ++ [10])).reverse := by
    conv => lhs; rw [← hjoin]
    rw [joinLines, List.reverse_append]
  rw [hreverse, List.takeWhile_append_of_pos hall, hlast, List.append_nil, List.length_reverse]

theorem fill?_cons (inbox chunk : List UInt8) (chunks : List (List UInt8)) :
    Server.fill? inbox (chunk :: chunks) =
      if maxPendingInput < (unfinished (inbox ++ chunk)).length then none
      else Server.fill? (inbox ++ chunk) chunks := by
  simp only [Server.fill?, List.foldlM_cons, length_takeWhile_reverse]
  split <;> rfl

theorem fill?_eq_some {inbox out : List UInt8} {chunks : List (List UInt8)}
    (h : Server.fill? inbox chunks = some out) : out = inbox ++ chunks.flatten := by
  induction chunks generalizing inbox with
  | nil =>
    have hout : inbox = out := Option.some.inj h
    simp [hout]
  | cons chunk chunks ih =>
    rw [fill?_cons] at h
    split at h
    · cases h
    · rw [ih h, List.flatten_cons, List.append_assoc]

/-- Short lines can all be read. -/
theorem fill?_of_short {inbox : List UInt8} {chunks : List (List UInt8)}
    (h : Short (inbox ++ chunks.flatten)) :
    Server.fill? inbox chunks = some (inbox ++ chunks.flatten) := by
  induction chunks generalizing inbox with
  | nil => simp [Server.fill?]
  | cons chunk chunks ih =>
    rw [List.flatten_cons, ← List.append_assoc] at h ⊢
    rw [fill?_cons, if_neg (Nat.not_lt.mpr h.of_append.unfinished_le), ih h]

/-- Every complete line is shorter than the limit and one read together, and the unfinished one is
within the limit. -/
structure Bounded (bytes : List UInt8) : Prop where
  lines_lt : ∀ line ∈ linesOf bytes, line.length < maxPendingInput + readSize
  unfinished_le : (unfinished bytes).length ≤ maxPendingInput

theorem bounded_nil : Bounded [] := by
  constructor
  · intro line hline
    cases hline
  · exact Nat.zero_le _

theorem length_lt_of_mem_linesOf {bytes line : List UInt8} (h : line ∈ linesOf bytes) :
    line.length < bytes.length := by
  obtain ⟨hjoin, -, -⟩ := exists_joinLines bytes
  obtain ⟨before, after, hlines⟩ := List.append_of_mem h
  rw [hlines] at hjoin
  have hlen := congrArg List.length hjoin
  simp only [joinLines, List.flatMap_append, List.flatMap_cons, List.length_append,
    List.length_singleton] at hlen
  omega

theorem Bounded.append {bytes chunk : List UInt8} (h : Bounded bytes)
    (hchunk : chunk.length ≤ readSize)
    (hunfinished : (unfinished (bytes ++ chunk)).length ≤ maxPendingInput) :
    Bounded (bytes ++ chunk) := by
  refine ⟨fun line hline => ?_, hunfinished⟩
  rw [linesOf_append, List.mem_append] at hline
  rcases hline with hold | hnew
  · exact h.lines_lt line hold
  · have hlt := length_lt_of_mem_linesOf hnew
    have := h.unfinished_le
    rw [List.length_append] at hlt
    omega

/-- However the bytes come, a line that is too long is not read to its end. -/
theorem Bounded.fill? {inbox out : List UInt8} {chunks : List (List UInt8)} (h : Bounded inbox)
    (hchunks : ∀ chunk ∈ chunks, chunk.length ≤ readSize)
    (hfill : Server.fill? inbox chunks = some out) : Bounded out := by
  induction chunks generalizing inbox with
  | nil =>
    obtain rfl : inbox = out := Option.some.inj hfill
    exact h
  | cons chunk chunks ih =>
    rw [fill?_cons] at hfill
    split at hfill
    · cases hfill
    · rename_i hle
      exact ih (h.append (hchunks chunk List.mem_cons_self) (Nat.le_of_not_lt hle))
        (fun c hc => hchunks c (List.mem_cons_of_mem _ hc)) hfill

/-- Where the unfinished line of some bytes is read on, the lines before it do not matter. -/
theorem Bounded.join {bytes more : List UInt8} (h : Bounded bytes)
    (hmore : Bounded (unfinished bytes ++ more)) : Bounded (bytes ++ more) := by
  constructor
  · intro line hline
    rw [linesOf_append, List.mem_append] at hline
    rcases hline with hold | hnew
    · exact h.lines_lt line hold
    · exact hmore.lines_lt line hnew
  · rw [unfinished_append]
    exact hmore.unfinished_le

/-- No piece is too long. -/
theorem Bounded.length_lt {bytes piece : List UInt8} (h : Bounded bytes)
    (hpiece : piece ∈ pieces bytes) : piece.length < maxPendingInput + readSize := by
  rw [pieces, List.mem_append, List.mem_singleton] at hpiece
  rcases hpiece with hline | rfl
  · exact h.lines_lt piece hline
  · have hread : 0 < readSize := by decide
    have := h.unfinished_le
    omega

theorem unfinished_unfinished (bytes : List UInt8) :
    unfinished (unfinished bytes) = unfinished bytes := by
  conv => lhs; rw [unfinished, splitLines_of_not_mem (not_mem_unfinished bytes)]

theorem linesOf_unfinished (bytes : List UInt8) : linesOf (unfinished bytes) = [] := by
  rw [linesOf, splitLines_of_not_mem (not_mem_unfinished bytes)]

theorem Bounded.of_unfinished {bytes : List UInt8} (h : Bounded bytes) :
    Bounded (unfinished bytes) := by
  constructor
  · rw [linesOf_unfinished]
    intro line hline
    cases hline
  · rw [unfinished_unfinished]
    exact h.unfinished_le

/-! ### Reads -/

theorem chunks_go {size fuel : Nat} (hsize : 0 < size) {segment : List UInt8}
    (hfuel : segment.length ≤ fuel) :
    (Net.Connection.chunks.go size fuel segment).flatten = segment ∧
      ∀ chunk ∈ Net.Connection.chunks.go size fuel segment, chunk.length ≤ size := by
  induction fuel generalizing segment with
  | zero =>
    have hnil : segment = [] := List.length_eq_zero_iff.mp (Nat.le_zero.mp hfuel)
    subst hnil
    simp [Net.Connection.chunks.go]
  | succ fuel ih =>
    rw [Net.Connection.chunks.go]
    cases segment with
    | nil => simp
    | cons b bytes =>
      have hrest : ((b :: bytes).drop size).length ≤ fuel := by
        rw [List.length_drop, List.length_cons] at *
        omega
      obtain ⟨hflatten, hle⟩ := ih hrest
      simp only [List.isEmpty_cons, Bool.false_eq_true, if_false, List.flatten_cons, hflatten,
        List.take_append_drop, List.mem_cons, forall_eq_or_imp, true_and]
      exact ⟨List.length_take_le _ _, hle⟩

theorem chunks_readSize (segment : List UInt8) :
    (Net.Connection.chunks readSize segment).flatten = segment ∧
      ∀ chunk ∈ Net.Connection.chunks readSize segment, chunk.length ≤ readSize :=
  chunks_go (by decide) (Nat.le_refl _)

/-- The reads of a server give all the bytes that are there. -/
theorem flatten_chunks (segments : List (List UInt8)) :
    (segments.flatMap (Net.Connection.chunks readSize)).flatten = segments.flatten := by
  induction segments with
  | nil => rfl
  | cons segment rest ih =>
    rw [List.flatMap_cons, List.flatten_append, (chunks_readSize segment).1, ih, List.flatten_cons]

theorem length_le_of_mem_chunks {segments : List (List UInt8)} {chunk : List UInt8}
    (h : chunk ∈ segments.flatMap (Net.Connection.chunks readSize)) : chunk.length ≤ readSize := by
  obtain ⟨segment, -, hmem⟩ := List.mem_flatMap.mp h
  exact (chunks_readSize segment).2 chunk hmem

theorem readChunks_of_open {c : Net.Connection} (hopen : c.reset = false) :
    c.readChunks readSize =
      (c.incoming.flatMap (Net.Connection.chunks readSize), { c with incoming := [] }) := by
  simp [Net.Connection.readChunks, hopen]

end PinBench.Telemetry
