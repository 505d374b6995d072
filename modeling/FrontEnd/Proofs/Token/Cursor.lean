import FrontEnd.Proofs.Token.Composition
import FrontEnd.Token.Cursor

/-! # A cursor finds what a scanner finds

The scanner cuts its text into segments and counts the lines of each. The cursor keeps position and
line itself, branch by branch. Seen from the text ahead of it, a cursor is a scanner, and a turn of
the loop goes behind the segment at the front.

* `Cursor.ahead`: the text ahead of a cursor.
* `Cursor.floatLength?_eq` and its siblings: the lengths are those of what the recognisers find.
* `Scanner.past`: a scanner behind the segment at its front.
* `Cursor.Finds`: what a turn has to do for a segment.
* `Cursor.findsFirst_turn`: each turn does this for the segment at the front.
* `Cursor.scan_scanner`: the loop ends like the scanner, from any position.
* `Cursor.scan_ofText`: it finds the tokens and the complaints of every source text.
-/

namespace FrontEnd
set_option autoImplicit false

namespace Cursor

/-! ## What stands ahead -/

/-- The characters from `offset` on. -/
def ahead (cursor : Cursor) (offset : Nat) : List Char :=
  cursor.input.toList.drop (cursor.position + offset)

theorem ahead_add (cursor : Cursor) (offset more : Nat) :
    cursor.ahead (offset + more) = (cursor.ahead offset).drop more := by
  rw [ahead, ahead, List.drop_drop, Nat.add_assoc]

theorem peekAhead_eq (cursor : Cursor) (offset : Nat) :
    cursor.peekAhead offset = (cursor.ahead offset).head? := by
  rw [peekAhead, ahead, List.head?_drop, Array.getElem?_toList]

theorem ahead_of_peekAhead {cursor : Cursor} {offset : Nat} {c : Char}
    (h : cursor.peekAhead offset = some c) :
    cursor.ahead offset = c :: cursor.ahead (offset + 1) := by
  rw [peekAhead_eq] at h
  obtain ⟨s, hs⟩ := List.head?_eq_some_iff.1 h
  rw [ahead_add, hs]
  rfl

theorem ahead_of_peek {cursor : Cursor} {c : Char} (h : cursor.peek = some c) :
    cursor.ahead 0 = c :: cursor.ahead 1 :=
  ahead_of_peekAhead h

theorem ahead_nil_of_peekAhead {cursor : Cursor} {offset : Nat}
    (h : cursor.peekAhead offset = none) : cursor.ahead offset = [] := by
  rwa [peekAhead_eq, List.head?_eq_none_iff] at h

theorem countWhile_eq (cursor : Cursor) (offset : Nat) (p : Char → Bool) :
    cursor.countWhile offset p = ((cursor.ahead offset).takeWhile p).length := by
  fun_induction countWhile cursor offset p with
  | case1 offset c h hp ih =>
    rw [ahead_of_peekAhead h, List.takeWhile_cons_of_pos hp, List.length_cons, ih]
  | case2 offset c h hp => rw [ahead_of_peekAhead h, List.takeWhile_cons_of_neg hp, List.length_nil]
  | case3 offset h => rw [ahead_nil_of_peekAhead h, List.takeWhile_nil, List.length_nil]

theorem ahead_countWhile (cursor : Cursor) (offset : Nat) (p : Char → Bool) :
    cursor.ahead (offset + cursor.countWhile offset p) = (cursor.ahead offset).dropWhile p := by
  rw [ahead_add, countWhile_eq]
  nth_rewrite 2 [← List.takeWhile_append_dropWhile (p := p) (l := cursor.ahead offset)]
  exact List.drop_left

/-! ## Lengths of lexemes -/

theorem plainFloatLength?_eq (cursor : Cursor) :
    cursor.plainFloatLength? = (plainFloat? (cursor.ahead 0)).map List.length := by
  have hpoint := cursor.ahead_countWhile 0 Char.isDigit
  rw [Nat.zero_add, countWhile_eq] at hpoint
  unfold plainFloatLength? plainFloat?
  rw [countWhile_eq]
  generalize (cursor.ahead 0).takeWhile Char.isDigit = whole at hpoint ⊢
  generalize (cursor.ahead 0).dropWhile Char.isDigit = behind at hpoint ⊢
  simp only [peekAhead_eq, countWhile_eq, ahead_add _ _ 1, hpoint, List.length_pos_iff]
  cases behind with
  | nil => simp
  | cons d after =>
    by_cases hd : d = '.'
    · subst hd
      by_cases hw : whole = []
      · simp [hw]
      by_cases hf : after.takeWhile Char.isDigit = []
      · simp [hw, hf]
      · simp [hw, hf]
        omega
    · simp [hd]

/-- A sign, if there is one, stands before the digits. -/
theorem length_leadingSign (s : List Char) :
    (leadingSign s).length =
      if s.head?.any (fun sign => sign == '+' || sign == '-') then 1 else 0 := by
  cases s with
  | nil => rfl
  | cons c s =>
    by_cases h : c = '+' ∨ c = '-'
    · simp [leadingSign, h]
    · simp [leadingSign, h]

theorem exponentEnd?_eq (cursor : Cursor) (mark : Nat) :
    cursor.exponentEnd? mark = (exponent? (cursor.ahead mark)).map (mark + ·.length) := by
  unfold exponentEnd?
  simp only [peekAhead_eq, ahead_add _ mark 1]
  cases hahead : cursor.ahead mark with
  | nil => rfl
  | cons e after =>
    have hsign := length_leadingSign after
    have hstart : (if after.head?.any fun sign => sign == '+' || sign == '-' then mark + 2
        else mark + 1) = mark + ((leadingSign after).length + 1) := by
      rw [hsign]
      split <;> rfl
    simp only [List.head?_cons, Option.any_some, List.drop_succ_cons, List.drop_zero, hstart,
      countWhile_eq, ahead_add, hahead]
    rw [exponent?]
    generalize (after.drop (leadingSign after).length).takeWhile Char.isDigit = digits
    by_cases he : (e == 'e' || e == 'E') = true
    · by_cases hd : digits = []
      · simp [hd]
      · simp [he, hd, List.length_pos_iff]
        omega
    · simp [he]

theorem exponentFloatLength?_eq (cursor : Cursor) :
    cursor.exponentFloatLength? = (exponentFloat? (cursor.ahead 0)).map List.length := by
  have hpoint := cursor.ahead_countWhile 0 Char.isDigit
  rw [Nat.zero_add, countWhile_eq] at hpoint
  unfold exponentFloatLength? exponentFloat?
  rw [countWhile_eq]
  generalize (cursor.ahead 0).takeWhile Char.isDigit = whole at hpoint ⊢
  generalize (cursor.ahead 0).dropWhile Char.isDigit = behind at hpoint ⊢
  simp only [peekAhead_eq, exponentEnd?_eq, ahead_countWhile, hpoint]
  cases behind with
  | nil => rfl
  | cons d after =>
    by_cases hd : d = '.'
    · subst hd
      have hafter : cursor.ahead (whole.length + 1) = after := by
        rw [ahead_add, hpoint]
        rfl
      have hfraction := cursor.countWhile_eq (whole.length + 1) Char.isDigit
      rw [hafter] at hfraction ⊢
      rw [List.head?_cons, if_pos (beq_self_eq_true _), hfraction]
      show _ = ((exponent? (after.dropWhile Char.isDigit)).map _).map List.length
      cases exponent? (after.dropWhile Char.isDigit) with
      | none => rfl
      | some exponent =>
        simp
        omega
    · simp [hd]

theorem floatLength?_eq (cursor : Cursor) :
    cursor.floatLength? = (float? (cursor.ahead 0)).map List.length := by
  unfold floatLength? float?
  rw [plainFloatLength?_eq, exponentFloatLength?_eq]
  cases hx : exponentFloat? (cursor.ahead 0) with
  | none => cases plainFloat? (cursor.ahead 0) <;> rfl
  | some v =>
    cases hp : plainFloat? (cursor.ahead 0) with
    | none => rfl
    | some w =>
      obtain ⟨hplain, rest, hrest⟩ := exists_of_plainFloat? hp
      rw [← hrest] at hx
      exact congrArg some (Nat.max_eq_right (length_plain_le_exponent hplain hx))

theorem isDigit_and_ne_zero (c : Char) :
    (decide ('1' ≤ c) && decide (c ≤ '9')) = (c.isDigit && c != '0') := by
  have hzero : c = '0' ↔ c.toNat = 48 := Char.toNat_inj.symm
  rw [Bool.eq_iff_iff]
  simp [Char.isDigit, Char.le_def, UInt32.le_iff_toNat_le, hzero]
  omega

/-- The three kinds of integers are tried one after the other. -/
theorem integerLength?_eq (cursor : Cursor) :
    cursor.hexLength?.or (cursor.octalLength?.or cursor.decimalLength?) =
      (integer? (cursor.ahead 0)).map List.length := by
  unfold hexLength? octalLength? decimalLength?
  rw [peek]
  simp only [peekAhead_eq, countWhile_eq, cursor.ahead_add 0 1, cursor.ahead_add 0 2,
    isDigit_and_ne_zero]
  cases hahead : cursor.ahead 0 with
  | nil => rfl
  | cons c s =>
    by_cases hzero : c = '0'
    · subst hzero
      cases hx : s.head?.any fun x => x == 'x' || x == 'X' with
      | true =>
        obtain ⟨x, hs, hx⟩ := (Option.any_eq_true _ _).1 hx
        obtain ⟨rest, rfl⟩ := List.head?_eq_some_iff.1 hs
        have hletter : x = 'x' ∨ x = 'X' := by simpa using hx
        rw [integer?_hex hletter]
        simp [hletter]
        omega
      | false =>
        rw [integer?_octal (by simpa [Option.any_eq_false] using hx)]
        simp [hx, Nat.add_comm]
    · cases hd : c.isDigit with
      | true =>
        rw [integer?_decimal hd hzero]
        simp [hzero, hd, Nat.add_comm]
      | false => simp [integer?, hzero, hd]

/-- Behind all that is no quote comes a quote, if there is one at all. -/
theorem head?_dropWhile_bne (quote : Char) (s : List Char) :
    ((s.dropWhile (· != quote)).head? == some quote) = s.contains quote := by
  induction s with
  | nil => rfl
  | cons c s ih =>
    by_cases h : c = quote
    · simp [h]
    · simp [h, Ne.symm h, ih]

theorem stringLength?_eq (cursor : Cursor) :
    cursor.stringLength? = (quoted? (cursor.ahead 0)).map List.length := by
  unfold stringLength?
  rw [peek, peekAhead_eq]
  cases hahead : cursor.ahead 0 with
  | nil => rfl
  | cons quote s =>
    have hs : cursor.ahead 1 = s := by
      rw [cursor.ahead_add 0 1, hahead]
      rfl
    have hquote := cursor.ahead_countWhile 1 (· != quote)
    have hbody := cursor.countWhile_eq 1 (· != quote)
    rw [hbody, hs] at hquote
    rw [hs] at hbody
    simp only [List.head?_cons, peekAhead_eq, hbody, hquote]
    rw [quoted?, head?_dropWhile_bne]
    split
    · simp
    · rfl

/-- The operators are tried in the same order. -/
theorem punctuation?_eq (c : Char) (s : List Char) :
    punctuation? c s.head? =
      (operator? (c :: s)).map fun entry =>
        (entry.1.length, entry.2, (Lexeme.value ⟨entry.1, entry.2⟩).isSome) := by
  unfold punctuation?
  split
  rotate_right
  · -- No operator starts with such characters.
    rw [eq_comm, Option.map_eq_none_iff, operator?, List.find?_eq_none]
    simp only [operators, List.forall_mem_cons, List.isPrefixOf_iff_prefix]
    cases s <;> and_intros <;> grind
  any_goals rfl
  -- Two characters that make an operator together.
  any_goals
    obtain ⟨rest, rfl⟩ := List.head?_eq_some_iff.1 (by assumption)
    rfl
  -- One character that the next one could have joined, and does not.
  all_goals
    rename_i h
    cases s with
    | nil => rfl
    | cons d s =>
      rw [List.head?_cons, Option.some_inj] at h
      simp [operator?, operators, Lexeme.value, Ne.symm h]

end Cursor

/-! ## Behind a segment -/

namespace Scanner

/-- The scanner behind the segment at its front. -/
def past (scanner : Scanner) (segment : Segment) : Scanner where
  unread := scanner.unread.drop segment.text.length
  line := scanner.line + segment.newlines
  nextId := scanner.nextId + segment.lexeme?.toList.length
  errors := scanner.errors ++ (segment.fault?.map (⟨scanner.line, ·⟩)).toList

theorem scan_of_chosen {scanner : Scanner} {segment : Segment}
    (h : Segment.Chosen scanner.unread segment) :
    scanner.scan =
      ((segment.lexeme?.map (Token.ofLexeme scanner.nextId scanner.line)).toList ++
        (scanner.past segment).scan.1, (scanner.past segment).scan.2) := by
  obtain ⟨rest, hrest⟩ := h.text_prefix
  have hparts := segments_of_chosen h hrest.symm
  have hunread : (scanner.past segment).unread = rest := by
    rw [past, ← hrest, List.drop_left]
  have hcount : scanner.unread.count '\n' = segment.newlines + rest.count '\n' := by
    rw [← hrest, List.count_append, Segment.newlines]
  have herrors : errorsFrom scanner.line (segment :: segments rest) =
      (segment.fault?.map (⟨scanner.line, ·⟩)).toList ++
        errorsFrom (scanner.line + segment.newlines) (segments rest) := by
    rw [errorsFrom]
    cases segment.fault? <;> rfl
  simp only [scan, hparts, hunread, hcount, herrors, tokensFrom_cons]
  simp [past, Nat.add_assoc]
  cases segment.lexeme? <;> simp

end Scanner

namespace Cursor

/-- What a cursor has still to read, as a scanner. -/
def scanner (cursor : Cursor) : Scanner where
  unread := cursor.ahead 0
  line := cursor.line
  nextId := cursor.nextId
  errors := cursor.errors

/-- A turn that finds the segment: its token, if it is a lexeme, and the cursor behind it. -/
structure Finds (cursor : Cursor) (segment : Segment) (found : Option Token × Cursor) : Prop where
  token : found.1 = segment.lexeme?.map (Token.ofLexeme cursor.nextId cursor.line)
  input : found.2.input = cursor.input
  position : found.2.position = cursor.position + segment.text.length
  line : found.2.line = cursor.line + segment.newlines
  nextId : found.2.nextId = cursor.nextId + segment.lexeme?.toList.length
  errors : found.2.errors = cursor.errors ++ (segment.fault?.map (⟨cursor.line, ·⟩)).toList

theorem Finds.scanner_eq {cursor : Cursor} {segment : Segment} {found : Option Token × Cursor}
    (h : cursor.Finds segment found) : found.2.scanner = cursor.scanner.past segment := by
  have hahead : found.2.ahead 0 = (cursor.ahead 0).drop segment.text.length := by
    rw [← ahead_add, Nat.zero_add, ahead, ahead, h.input, h.position, Nat.add_zero]
  rw [scanner, hahead, h.line, h.nextId, h.errors]
  rfl

/-! ## Tokens -/

section
variable {cursor : Cursor}

theorem take_eq {w : List Char} (h : w <+: cursor.ahead 0) (hw : w ≠ []) :
    cursor.take w.length =
      (String.ofList w, { cursor with position := cursor.position + w.length }) := by
  obtain ⟨rest, hrest⟩ := h
  rw [ahead, Nat.add_zero] at hrest
  have hlength := congrArg List.length hrest
  rw [List.length_append, List.length_drop] at hlength
  have hsize : cursor.input.toList.length = cursor.input.size := Array.length_toList
  have hpos := List.length_pos_iff.2 hw
  have hstop : min (cursor.position + w.length) cursor.input.size = cursor.position + w.length := by
    omega
  rw [take, hstop, Array.toList_extract, List.extract_eq_take_drop, ← hrest,
    Nat.add_sub_cancel_left, List.take_left]

theorem finds_makeToken {l : Lexeme} (hline : '\n' ∉ l.text) :
    cursor.Finds (.lexeme l)
      (({ cursor with position := cursor.position + l.text.length }.makeToken
        (String.ofList l.text) l.category l.value).map some id) where
  token := rfl
  input := rfl
  position := rfl
  line := by
    rw [Segment.newlines, Segment.text, List.count_eq_zero_of_not_mem hline]
    rfl
  nextId := rfl
  errors := (List.append_nil _).symm

theorem finds_literal {w : List Char} {category : Category} (h : w <+: cursor.ahead 0)
    (hw : w ≠ []) (hline : '\n' ∉ w)
    (hvalue : Lexeme.value ⟨w, category⟩ = some (String.ofList w)) :
    cursor.Finds (.lexeme ⟨w, category⟩) ((cursor.literal w.length category).map some id) := by
  rw [literal, take_eq h hw]
  dsimp only
  rw [← hvalue]
  exact finds_makeToken hline

theorem finds_operator {w : List Char} {category : Category} (h : w <+: cursor.ahead 0)
    (hw : w ≠ []) (hline : '\n' ∉ w)
    (hvalue : ∀ value ∈ Lexeme.value ⟨w, category⟩, value = String.ofList w) :
    cursor.Finds (.lexeme ⟨w, category⟩)
      ((cursor.operator w.length category (Lexeme.value ⟨w, category⟩).isSome).map some id) := by
  have hif : (if (Lexeme.value ⟨w, category⟩).isSome then some (String.ofList w) else none) =
      Lexeme.value ⟨w, category⟩ := by
    cases hv : Lexeme.value ⟨w, category⟩ with
    | none => rfl
    | some value => exact congrArg some (hvalue value hv).symm
  rw [operator, take_eq h hw]
  dsimp only
  rw [hif]
  exact finds_makeToken hline

theorem finds_word {w : List Char} (h : w <+: cursor.ahead 0) (hw : w ≠ []) (hline : '\n' ∉ w)
    (hlength : 1 + cursor.countWhile 1 isWordChar = w.length) :
    cursor.Finds (.lexeme ⟨w, .ofWord (String.ofList w)⟩) (cursor.word.map some id) := by
  rw [word, hlength, take_eq h hw]
  dsimp only
  rcases Category.ofWord_cases (String.ofList w) with he | ⟨_, -, he⟩ | he
  · rw [he]
    exact finds_makeToken (l := ⟨w, .typeName⟩) hline
  · rw [he]
    exact finds_makeToken (l := ⟨w, .keyword _⟩) hline
  · rw [he]
    exact finds_makeToken (l := ⟨w, .identifier⟩) hline

theorem finds_stringLiteral {w : List Char} (h : w <+: cursor.ahead 0) (hw : w ≠ []) :
    cursor.Finds (.lexeme ⟨w, .string⟩) ((cursor.stringLiteral w.length).map some id) := by
  have hvalue : (w.drop 1).take (w.length - 2) = (w.drop 1).dropLast := by
    rw [List.dropLast_eq_take, List.length_drop]
    rfl
  rw [stringLiteral, take_eq h hw]
  exact {
    token := by
      dsimp only [Prod.map, id]
      rw [String.toList_ofList, hvalue]
      rfl
    input := rfl
    position := rfl
    line := by simp [Segment.newlines, Segment.text]
    nextId := rfl
    errors := (List.append_nil _).symm }

/-! ## Comments -/

theorem skipLineComment_eq (cursor : Cursor) :
    cursor.skipLineComment =
      { cursor with
        position := cursor.position + ((cursor.ahead 0).takeWhile (· != '\n')).length } := by
  fun_induction skipLineComment cursor with
  | case1 cursor c h hc =>
    rw [ahead_of_peek h, List.takeWhile_cons_of_neg (by simpa using hc)]
    rfl
  | case2 cursor c h hc ih =>
    rw [ih, ahead_of_peek h, List.takeWhile_cons_of_pos (by simpa using hc), List.length_cons]
    have hnext :
        ({ cursor with position := cursor.position + 1 } : Cursor).ahead 0 = cursor.ahead 1 := rfl
    rw [hnext, Nat.add_assoc, Nat.add_comm 1]
  | case3 cursor h =>
    rw [ahead_nil_of_peekAhead h]
    rfl

theorem throughCommentEnd?_cons (c : Char) (s : List Char) :
    throughCommentEnd? (c :: s) =
      if c == '*' && s.head? == some '/' then some ['*', '/']
      else (throughCommentEnd? s).map (c :: ·) := by
  split
  · rename_i h
    rw [Bool.and_eq_true, beq_iff_eq, beq_iff_eq] at h
    obtain ⟨rest, rfl⟩ := List.head?_eq_some_iff.1 h.2
    rw [h.1]
    rfl
  · rename_i h
    rw [throughCommentEnd?]
    rintro rest rfl rfl
    exact h rfl

/-- Lines are counted up to where the comment ends, one by one. -/
theorem skipToCommentEnd_eq (start : Nat) (cursor : Cursor) :
    skipToCommentEnd start cursor =
      match throughCommentEnd? (cursor.ahead 0) with
      | some body =>
        { cursor with
          position := cursor.position + body.length
          line := cursor.line + body.count '\n' }
      | none =>
        { cursor with
          position := cursor.position + (cursor.ahead 0).length
          line := cursor.line + (cursor.ahead 0).count '\n'
          errors := cursor.errors ++ [⟨start, .unterminatedComment⟩] } := by
  fun_induction skipToCommentEnd start cursor with
  | case1 cursor c h hc =>
    rw [ahead_of_peek h, throughCommentEnd?_cons, ← peekAhead_eq, if_pos hc]
    rfl
  | case2 cursor c h hc ih =>
    have hline : ∀ s : List Char,
        (cursor.skip c).line + s.count '\n' = cursor.line + (c :: s).count '\n' := by
      intro s
      rw [skip, List.count_cons]
      dsimp only
      split <;> omega
    have hposition : ∀ n, (cursor.skip c).position + n = cursor.position + (n + 1) := by
      intro n
      show cursor.position + 1 + n = _
      omega
    have hnext : (cursor.skip c).ahead 0 = cursor.ahead 1 := rfl
    rw [ih, ahead_of_peek h, throughCommentEnd?_cons, ← peekAhead_eq, if_neg hc, hnext]
    cases throughCommentEnd? (cursor.ahead 1) with
    | none =>
      dsimp only [Option.map_none]
      rw [hline, hposition]
      rfl
    | some body =>
      dsimp only [Option.map_some]
      rw [hline, hposition]
      rfl
  | case3 cursor h =>
    rw [ahead_nil_of_peekAhead h]
    rfl

theorem finds_skipLineComment {rest : List Char} (h : cursor.ahead 0 = '/' :: '/' :: rest) :
    cursor.Finds (.lineComment ('/' :: '/' :: rest.takeWhile (· != '\n')))
      (none, cursor.skipLineComment) := by
  have htake : (cursor.ahead 0).takeWhile (· != '\n') =
      '/' :: '/' :: rest.takeWhile (· != '\n') := by
    rw [h]
    rfl
  rw [skipLineComment_eq, htake]
  refine ⟨rfl, rfl, rfl, ?_, rfl, (List.append_nil _).symm⟩
  rw [Segment.newlines, Segment.text, ← htake, List.count_eq_zero_of_not_mem]
  · rfl
  · exact fun hm => absurd (List.mem_takeWhile_imp hm) (by simp)

end

/-! ## Turns -/

/-- A turn that finds the segment at the front. -/
def FindsFirst (cursor : Cursor) (found : Option Token × Cursor) : Prop :=
  ∃ segment, Segment.Chosen (cursor.ahead 0) segment ∧ cursor.Finds segment found

section
variable {cursor : Cursor} {c : Char}

theorem findsFirst_skipBlockComment {rest : List Char} (h : cursor.ahead 0 = '/' :: '*' :: rest) :
    cursor.FindsFirst (none, cursor.skipBlockComment) := by
  have hrest : ({ cursor with position := cursor.position + 2 } : Cursor).ahead 0 = rest := by
    show cursor.ahead (0 + 2) = rest
    rw [ahead_add, h]
    rfl
  rw [skipBlockComment, skipToCommentEnd_eq, hrest]
  cases hend : throughCommentEnd? rest with
  | some body =>
    refine ⟨_, .blockComment h hend, rfl, rfl, ?_, ?_, rfl, (List.append_nil _).symm⟩
    · simp [Segment.text]
      omega
    · simp [Segment.newlines, Segment.text]
  | none =>
    refine ⟨_, .openComment h hend, rfl, rfl, ?_, ?_, rfl, rfl⟩
    · simp [Segment.text]
      omega
    · simp [Segment.newlines, Segment.text]

/-- The two characters that open a comment are looked at one by one. -/
theorem opener_iff (h : cursor.peek = some c) (d : Char) :
    (c == '/' && cursor.peekAhead 1 == some d) = true ↔ ['/', d] <+: cursor.ahead 0 := by
  rw [ahead_of_peek h, List.cons_prefix_cons, Bool.and_eq_true, beq_iff_eq, beq_iff_eq,
    peekAhead_eq, List.head?_eq_some_iff, @eq_comm _ c]
  exact and_congr_right fun _ => exists_congr fun rest => eq_comm

/-- Only strings have line breaks in them. -/
theorem newline_not_mem {k : TokenClass} {w : List Char} (hk : k ≠ .string) (hw : w ∈ k.language) :
    '\n' ∉ w := by
  intro hm
  have hblank := (TokenClass.isVisible_of_mem_language hk hw _ hm).not_isBlank
  exact absurd hblank (by decide)

/-- Numbers and strings do not start like comments, so the order does not matter here. -/
theorem comment?_eq_none {k : TokenClass} {s w : List Char} (hk : k.starts '/' = false)
    (h : k.find? s = some w) : Segment.comment? s = none := by
  obtain ⟨hw, hs⟩ := k.findsLongest_find?.sound h
  obtain ⟨d, rest, rfl, hd⟩ := TokenClass.exists_start hw
  obtain ⟨tail, rfl⟩ := hs
  have hne : '/' ≠ d := by
    rintro rfl
    rw [hk] at hd
    exact absurd hd (by simp)
  exact Segment.comment?_eq_none_iff.2 ⟨fun hopen => hne (List.cons_prefix_cons.1 hopen).1,
    fun hopen => hne (List.cons_prefix_cons.1 hopen).1⟩

theorem findsFirst_literal {k : TokenClass} {category : Category} {w : List Char} (hk : k ≠ .string)
    (hslash : k.starts '/' = false) (h : k.find? (cursor.ahead 0) = some w)
    (hfirst : Lexeme.first? (cursor.ahead 0) = some ⟨w, category⟩)
    (hvalue : Lexeme.value ⟨w, category⟩ = some (String.ofList w)) :
    cursor.FindsFirst ((cursor.literal w.length category).map some id) := by
  obtain ⟨hw, hs⟩ := k.findsLongest_find?.sound h
  exact ⟨_, .lexeme (comment?_eq_none hslash h) hfirst,
    finds_literal hs (Lexeme.text_ne_nil_of_first? hfirst) (newline_not_mem hk hw) hvalue⟩

theorem findsFirst_integer {length : Nat} (hfloat : float? (cursor.ahead 0) = none)
    (h : cursor.hexLength?.or (cursor.octalLength?.or cursor.decimalLength?) = some length) :
    cursor.FindsFirst ((cursor.literal length .int).map some id) := by
  rw [integerLength?_eq] at h
  obtain ⟨w, hw, rfl⟩ := Option.map_eq_some_iff.1 h
  exact findsFirst_literal (k := .integer) (by decide) (by decide) hw
    (by simp [Lexeme.first?, hfloat, hw]) rfl

theorem findsFirst_operator {entry : List Char × Category}
    (hcomment : Segment.comment? (cursor.ahead 0) = none) (hm : entry ∈ operators)
    (hfirst : Lexeme.first? (cursor.ahead 0) = some ⟨entry.1, entry.2⟩) :
    cursor.FindsFirst
      ((cursor.operator entry.1.length entry.2 (Lexeme.value ⟨entry.1, entry.2⟩).isSome).map
        some id) := by
  refine ⟨_, .lexeme hcomment hfirst, finds_operator (Lexeme.prefix_of_first? hfirst)
    (Lexeme.text_ne_nil_of_first? hfirst) ?_ ?_⟩
  · exact newline_not_mem (k := .operator) (by decide) ⟨_, hm⟩
  · intro value hvalue
    rw [(TokenClass.classifies_operator hm).2] at hvalue
    split at hvalue
    · exact (Option.some.inj hvalue).symm
    · exact absurd hvalue (by simp)

theorem findsFirst_word {w : List Char} (hcomment : Segment.comment? (cursor.ahead 0) = none)
    (hw : word? (cursor.ahead 0) = some w)
    (hfirst : Lexeme.first? (cursor.ahead 0) = some ⟨w, .ofWord (String.ofList w)⟩) :
    cursor.FindsFirst (cursor.word.map some id) := by
  obtain ⟨hmem, hs⟩ := findsLongest_word?.sound hw
  refine ⟨_, .lexeme hcomment hfirst, finds_word hs (Lexeme.text_ne_nil_of_first? hfirst)
    (newline_not_mem (k := .word) (by decide) hmem) ?_⟩
  rw [countWhile_eq, cursor.ahead_add 0 1]
  cases hahead : cursor.ahead 0 with
  | nil => simp [hahead, word?] at hw
  | cons c s =>
    rw [hahead, word?] at hw
    split at hw
    · obtain rfl := Option.some.inj hw
      rw [List.length_cons, Nat.add_comm]
      rfl
    · exact absurd hw (by simp)

/-- Where nothing is measured, nothing is recognised. -/
theorem eq_none_of_length? {measured : Option Nat} {found : Option (List Char)}
    (he : measured = found.map List.length) (h : ∀ length, measured ≠ some length) :
    found = none :=
  Option.map_eq_none_iff.1 (he ▸ Option.eq_none_iff_forall_ne_some.2 h)

/-- One bullet for each branch of the loop, in its order. -/
theorem findsFirst_turn (h : cursor.peek = some c) : cursor.FindsFirst (cursor.turn c) := by
  have hahead := ahead_of_peek h
  unfold turn
  split
  · rename_i hnewline
    rw [beq_iff_eq.1 hnewline] at hahead
    exact ⟨_, .newline hahead, rfl, rfl, rfl, rfl, rfl, (List.append_nil _).symm⟩
  rename_i hnewline
  have hc : c ≠ '\n' := by simpa using hnewline
  split
  · rename_i hblank
    refine ⟨_, .blank hahead hblank hc, rfl, rfl, rfl, ?_, rfl, (List.append_nil _).symm⟩
    simp [Segment.newlines, Segment.text, hc]
  rename_i hblank
  split
  · rename_i hlength
    rw [floatLength?_eq] at hlength
    obtain ⟨w, hw, rfl⟩ := Option.map_eq_some_iff.1 hlength
    exact findsFirst_literal (k := .float) (by decide) (by decide) hw
      (by simp [Lexeme.first?, hw]) rfl
  rename_i hlength
  have hfloat := eq_none_of_length? cursor.floatLength?_eq hlength
  split
  · rename_i hhex
    exact findsFirst_integer hfloat (by rw [hhex]; rfl)
  rename_i hhex
  replace hhex := Option.eq_none_iff_forall_ne_some.2 hhex
  split
  · rename_i hoctal
    exact findsFirst_integer hfloat (by rw [hhex, hoctal]; rfl)
  rename_i hoctal
  replace hoctal := Option.eq_none_iff_forall_ne_some.2 hoctal
  split
  · rename_i hdecimal
    exact findsFirst_integer hfloat (by rw [hhex, hoctal, hdecimal]; rfl)
  rename_i hdecimal
  have hinteger := eq_none_of_length? cursor.integerLength?_eq (by rwa [hhex, hoctal])
  split
  · rename_i hlength
    rw [stringLength?_eq] at hlength
    obtain ⟨w, hw, rfl⟩ := Option.map_eq_some_iff.1 hlength
    have hfirst : Lexeme.first? (cursor.ahead 0) = some ⟨w, .string⟩ := by
      simp [Lexeme.first?, hfloat, hinteger, hw]
    exact ⟨_, .lexeme (comment?_eq_none (k := .string) (by decide) hw) hfirst,
      finds_stringLiteral (Lexeme.prefix_of_first? hfirst) (Lexeme.text_ne_nil_of_first? hfirst)⟩
  rename_i hlength
  have hstring := eq_none_of_length? cursor.stringLength?_eq hlength
  split
  · rename_i hopen
    obtain ⟨rest, hrest⟩ := (opener_iff h '/').1 hopen
    exact ⟨_, .lineComment hrest.symm, finds_skipLineComment hrest.symm⟩
  rename_i hline
  split
  · rename_i hopen
    obtain ⟨rest, hrest⟩ := (opener_iff h '*').1 hopen
    exact findsFirst_skipBlockComment hrest.symm
  rename_i hblock
  rw [opener_iff h] at hline hblock
  have hcomment := Segment.comment?_eq_none_iff.2 ⟨hline, hblock⟩
  have hpunctuation := punctuation?_eq c (cursor.ahead 1)
  rw [← peekAhead_eq, ← hahead] at hpunctuation
  split
  · rename_i hfound
    rw [hpunctuation] at hfound
    obtain ⟨entry, hentry, he⟩ := Option.map_eq_some_iff.1 hfound
    obtain ⟨rfl, rfl, rfl⟩ : entry.1.length = _ ∧ entry.2 = _ ∧ _ = _ := by simpa using he
    exact findsFirst_operator hcomment (List.mem_of_find?_eq_some hentry)
      (by simp [Lexeme.first?, hfloat, hinteger, hstring, hentry])
  rename_i hno
  have hoperator : operator? (cursor.ahead 0) = none := by
    cases hentry : operator? (cursor.ahead 0) with
    | none => rfl
    | some entry =>
      rw [hentry] at hpunctuation
      exact absurd hpunctuation (hno _ _ _)
  split
  · rename_i hstart
    have hword : word? (cursor.ahead 0) = some (c :: (cursor.ahead 1).takeWhile isWordChar) := by
      rw [hahead, word?, if_pos hstart]
    exact findsFirst_word hcomment hword
      (by simp [Lexeme.first?, hfloat, hinteger, hstring, hoperator, hword])
  · rename_i hstart
    have hword : word? (cursor.ahead 0) = none := by
      rw [hahead, word?, if_neg hstart]
    have hfirst : Lexeme.first? (cursor.ahead 0) = none := by
      simp [Lexeme.first?, hfloat, hinteger, hstring, hoperator, hword]
    refine ⟨_, .unrecognized hahead (by simpa using hblank) hcomment hfirst, rfl, rfl, rfl, ?_,
      rfl, rfl⟩
    simp [Segment.newlines, Segment.text, hc]

end

/-! ## The whole text -/

theorem scan_scanner (cursor : Cursor) :
    (cursor.scan.1, cursor.scan.2.scanner) = cursor.scanner.scan := by
  fun_induction scan cursor with
  | case1 cursor c h found later ih =>
    obtain ⟨segment, hchosen, hfinds⟩ := findsFirst_turn h
    rw [Scanner.scan_of_chosen hchosen, ← hfinds.scanner_eq, ← ih]
    show ((cursor.turn c).1.toList ++ later.1, later.2.scanner) = _
    rw [hfinds.token]
    rfl
  | case2 cursor h =>
    simp [scanner, ahead_nil_of_peekAhead h, Scanner.scan, segments, tokensFrom, errorsFrom]

/-- The loop over a source text finds its tokens and complaints. -/
theorem scan_ofText (source : String) :
    ((ofText source).scan.1, (ofText source).scan.2.errors) = tokenize source := by
  have hscanner : (ofText source).scanner = Scanner.ofText source := rfl
  rw [tokenize, ← hscanner, ← scan_scanner]
  rfl

end Cursor
end FrontEnd
