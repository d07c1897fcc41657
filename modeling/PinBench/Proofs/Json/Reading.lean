import PinBench.Json.Reader
import PinBench.Proofs.Json.Scanning

/-! Reading undoes printing.  The tokens of a value take the reader from where a value may stand to
where that value has been delivered, whatever containers are open around it; so printed text is read
as the value that it was printed from.  Printed text is one line. -/

namespace PinBench.Json

namespace Reading

theorem foldlM_cons_of_step? {r r' : Reading} {token : Token} (h : r.step? token = some r')
    (more : List Token) : (token :: more).foldlM step? r = more.foldlM step? r' := by
  rw [List.foldlM_cons, h]
  rfl

/-- No value begins with the bracket that closes an array, so the first item of an array is read
like any other value. -/
theorem foldlM_firstItem (j : Json) (stack : List Frame) (more : List Token) :
    (j.tokens ++ more).foldlM step? ⟨stack, .firstItem⟩ =
      (j.tokens ++ more).foldlM step? ⟨stack, .value⟩ := by
  have hfirst : ∃ token rest, j.tokens = token :: rest ∧ token ≠ .closeBracket := by
    unfold Json.tokens
    split <;> exact ⟨_, _, rfl, by simp⟩
  obtain ⟨token, rest, htokens, hne⟩ := hfirst
  have hstep : step? ⟨stack, .firstItem⟩ token = step? ⟨stack, .value⟩ token := if_neg hne
  rw [htokens, List.cons_append, List.foldlM_cons, List.foldlM_cons, hstep]

mutual

/-- The tokens of a value deliver it. -/
theorem foldlM_tokens (j : Json) (stack : List Frame) (more : List Token) :
    (j.tokens ++ more).foldlM step? ⟨stack, .value⟩ = more.foldlM step? (deliver stack j) := by
  match j with
  | .null | .bool _ | .number _ | .string _ => exact foldlM_cons_of_step? rfl more
  | .array [] => exact (foldlM_cons_of_step? rfl _).trans (foldlM_cons_of_step? rfl more)
  | .array (item :: items) =>
    rw [tokens, List.cons_append, List.append_assoc, foldlM_cons_of_step? rfl,
      foldlM_firstItem, foldlM_tokens item, deliver, foldlM_itemTokens items]
    simp
  | .object [] => exact (foldlM_cons_of_step? rfl _).trans (foldlM_cons_of_step? rfl more)
  | .object ((key, value) :: members) =>
    rw [tokens, List.cons_append, List.cons_append, List.cons_append, List.append_assoc,
      foldlM_cons_of_step? rfl, foldlM_cons_of_step? rfl,
      foldlM_cons_of_step? rfl, foldlM_tokens value, deliver, foldlM_memberTokens members]
    simp

/-- The tokens after an item put the items that they write after those before them. -/
theorem foldlM_itemTokens (items before : List Json) (stack : List Frame) (more : List Token) :
    (itemTokens items ++ more).foldlM step? ⟨.array before :: stack, .separator⟩ =
      more.foldlM step? (deliver stack (.array (before.reverse ++ items))) := by
  match items with
  | [] =>
    rw [itemTokens, List.append_nil]
    exact foldlM_cons_of_step? rfl more
  | item :: items =>
    rw [itemTokens, List.cons_append, List.append_assoc, foldlM_cons_of_step? rfl,
      foldlM_tokens item, deliver, foldlM_itemTokens items]
    simp

theorem foldlM_memberTokens (members before : List (Option String × Json)) (stack : List Frame)
    (more : List Token) :
    (memberTokens members ++ more).foldlM step? ⟨.object before none :: stack, .separator⟩ =
      more.foldlM step? (deliver stack (.object (before.reverse ++ members))) := by
  match members with
  | [] =>
    rw [memberTokens, List.append_nil]
    exact foldlM_cons_of_step? rfl more
  | (key, value) :: members =>
    rw [memberTokens, List.cons_append, List.cons_append, List.cons_append, List.append_assoc,
      foldlM_cons_of_step? rfl, foldlM_cons_of_step? rfl, foldlM_cons_of_step? rfl,
      foldlM_tokens value, deliver, foldlM_memberTokens members]
    simp

end

end Reading

theorem ofTokens?_tokens (j : Json) : ofTokens? j.tokens = some j := by
  have h := Reading.foldlM_tokens j [] []
  rw [List.append_nil] at h
  rw [ofTokens?, Reading.start, h]
  rfl

/-- Every value is read back from its text, if its numbers are well-formed and its strings and keys
are texts. -/
theorem read?_print {j : Json} (h : j.wellFormed isNumber = true) {text : List Char}
    (htext : ∀ c ∈ text, c ∈ blanks) : read? (j.print ++ text) = some j := by
  rw [read?, tokens?_print h htext, Option.bind_some, ofTokens?_tokens]

/-! ### One line -/

theorem not_mem_of_foldlM {c : Char} (hc : Breaks c) {literal : List Char}
    {phase final : NumberPhase} (h : literal.foldlM NumberPhase.next? phase = some final) :
    c ∉ literal := by
  induction literal generalizing phase with
  | nil => exact List.not_mem_nil
  | cons d literal ih =>
    rw [List.foldlM_cons, Option.bind_eq_bind, Option.bind_eq_some_iff] at h
    obtain ⟨next, hnext, hmore⟩ := h
    rw [List.mem_cons, not_or]
    refine ⟨?_, ih hmore⟩
    rintro rfl
    rw [hc phase] at hnext
    cases hnext

theorem lineFeed_not_mem_literal {literal : List Char} (h : isNumber literal = true) :
    '\n' ∉ literal := by
  have hbreaks : Breaks '\n' := by
    intro phase
    cases phase <;> rfl
  simp only [isNumber, Option.any_eq_true] at h
  obtain ⟨final, hdigits, -⟩ := h
  split at hdigits
  · rw [List.mem_cons, not_or]
    exact ⟨by decide, not_mem_of_foldlM hbreaks hdigits⟩
  · exact not_mem_of_foldlM hbreaks hdigits

theorem lineFeed_not_mem_printChar (c : Char) : '\n' ∉ printChar c := by
  have hdigit : ∀ n, hexDigit n ≠ '\n' := fun n => by
    have hdigits : ∀ d < 16, Nat.digitChar d ≠ '\n' := by decide
    exact hdigits (n % 16) (Nat.mod_lt n (by decide))
  unfold printChar
  split
  case h_8 hlineFeed _ _ =>
    split
    · simp [(hdigit _).symm]
    · exact fun h => hlineFeed (List.mem_singleton.mp h).symm
  all_goals decide

theorem lineFeed_not_mem_printText (text : Option String) : '\n' ∉ printText text := by
  simp [printText, lineFeed_not_mem_printChar]

mutual

/-- Printed text holds no line feed. -/
theorem lineFeed_not_mem_print (j : Json) (h : j.wellFormed isNumber = true) : '\n' ∉ j.print := by
  match j with
  | .null | .bool true | .bool false | .array [] | .object [] => decide
  | .number literal => exact lineFeed_not_mem_literal h
  | .string text => exact lineFeed_not_mem_printText text
  | .array (item :: items) =>
    rw [wellFormed, wellFormedItems, Bool.and_eq_true] at h
    simp [print, lineFeed_not_mem_print item h.1, lineFeed_not_mem_printItems items h.2]
  | .object ((key, value) :: members) =>
    rw [wellFormed, wellFormedMembers, Bool.and_eq_true, Bool.and_eq_true] at h
    simp [print, lineFeed_not_mem_printText key, lineFeed_not_mem_print value h.1.2,
      lineFeed_not_mem_printMembers members h.2]

theorem lineFeed_not_mem_printItems (items : List Json)
    (h : wellFormedItems isNumber items = true) : '\n' ∉ printItems items := by
  match items with
  | [] => decide
  | item :: items =>
    rw [wellFormedItems, Bool.and_eq_true] at h
    simp [printItems, lineFeed_not_mem_print item h.1, lineFeed_not_mem_printItems items h.2]

theorem lineFeed_not_mem_printMembers (members : List (Option String × Json))
    (h : wellFormedMembers isNumber members = true) : '\n' ∉ printMembers members := by
  match members with
  | [] => decide
  | (key, value) :: members =>
    rw [wellFormedMembers, Bool.and_eq_true, Bool.and_eq_true] at h
    simp [printMembers, lineFeed_not_mem_printText key, lineFeed_not_mem_print value h.1.2,
      lineFeed_not_mem_printMembers members h.2]

end

end PinBench.Json
