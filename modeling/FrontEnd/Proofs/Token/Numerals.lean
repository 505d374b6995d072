import FrontEnd.Program.Literal
import FrontEnd.Proofs.Token.Composition
import Mathlib.Data.Nat.Digits.Defs

/-! # Integers as they are written

The texts of the integer tokens with their values, independent of how these are read.

* `Numeral`: an integer in one of its three forms; `Numeral.text`, `Numeral.value`.
* `exists_token_iff_numeral`: integer tokens are the numerals.
* `Numeral.size?`: the value as a size; `Numeral.literalValue?_text`: it is what the reader finds.
-/

namespace FrontEnd
set_option autoImplicit false

/-! ## Numerals -/

/-- An integer as it is written. -/
inductive Numeral where
  /-- `0x` or `0X` and the digits after it, which may be missing. -/
  | hexadecimal (mark : Char) (run : List Char) (marked : mark = 'x' ∨ mark = 'X')
      (valid : ∀ c ∈ run, isHexDigit c = true)
  /-- A zero and the digits after it. -/
  | octal (run : List Char) (valid : ∀ c ∈ run, isOctalDigit c = true)
  | decimal (first : Char) (run : List Char) (nonzero : first ≠ '0')
      (valid : ∀ c ∈ first :: run, c.isDigit = true)

/-- The value of a digit, in either case. -/
def digitOf (c : Char) : Nat := "0123456789abcdef".toList.idxOf c.toLower

namespace Numeral

def chars : Numeral → List Char
  | hexadecimal mark run _ _ => '0' :: mark :: run
  | octal run _ => '0' :: run
  | decimal first run _ _ => first :: run

def text (n : Numeral) : String := String.ofList n.chars

def base : Numeral → Nat
  | hexadecimal .. => 16
  | octal .. => 8
  | decimal .. => 10

/-- The digits, the most significant one first. -/
def digits : Numeral → List Char
  | hexadecimal _ run _ _ => run
  | octal run _ => '0' :: run
  | decimal first run _ _ => first :: run

def value (n : Numeral) : Nat := Nat.ofDigits n.base (n.digits.reverse.map digitOf)

/-- The number that the text stands for, if it has digits and 64 bits hold it. -/
def size? (n : Numeral) : Option Nat :=
  if n.digits = [] ∨ 2 ^ 64 ≤ n.value then none else some n.value

end Numeral

/-! ## Tokens -/

open TokenClass

theorem Numeral.chars_mem_integers (n : Numeral) : n.chars ∈ integers := by
  refine mem_integers.2 ?_
  cases n with
  | hexadecimal mark run marked valid => exact Or.inl ⟨mark, run, marked, valid, rfl⟩
  | octal run valid => exact Or.inr (Or.inl ⟨run, valid, rfl⟩)
  | decimal first run nonzero valid =>
    rw [List.forall_mem_cons] at valid
    exact Or.inr (Or.inr ⟨first, run, valid.1, nonzero, valid.2, rfl⟩)

theorem exists_numeral_of_mem_integers {w : List Char} (h : w ∈ integers) :
    ∃ n : Numeral, n.chars = w := by
  rcases mem_integers.1 h with ⟨mark, run, marked, valid, rfl⟩ | ⟨run, valid, rfl⟩ |
    ⟨first, run, hfirst, nonzero, hrun, rfl⟩
  · exact ⟨.hexadecimal mark run marked valid, rfl⟩
  · exact ⟨.octal run valid, rfl⟩
  · exact ⟨.decimal first run nonzero (List.forall_mem_cons.2 ⟨hfirst, hrun⟩), rfl⟩

/-- Only integers are lexemes of this category. -/
theorem Lexeme.mem_integers_of_first? {s : List Char} {l : Lexeme} (h : first? s = some l)
    (hc : l.category = .int) : l.text ∈ integers := by
  obtain ⟨k, hk, hclass, -⟩ := exists_class_of_first? h
  rw [hc] at hclass
  cases k with
  | integer => exact (findsLongest_integer?.sound hk).1
  | float => exact absurd hclass.1 (by simp)
  | string => exact absurd hclass.1 (by simp)
  | operator => exact absurd hclass.1 (by simp [operators])
  | word => simp [Classifies] at hclass

/-- An integer is its own lexeme. -/
theorem Lexeme.first?_integer {w : List Char} (h : w ∈ integers) : first? w = some ⟨w, .int⟩ := by
  have hfloat : float? w = none := by
    refine Option.eq_none_iff_forall_ne_some.2 fun v hv => ?_
    obtain ⟨hv, hfront⟩ := findsLongest_float?.sound hv
    exact point_not_mem_of_integers h (hfront.subset (point_mem_of_floats hv))
  have hinteger : integer? w = some w :=
    findsLongest_integer?.find?_eq_some_iff.2 ⟨⟨h, List.prefix_rfl⟩, fun _ _ hv => hv.length_le⟩
  simp [first?, hfloat, hinteger]

theorem segments_integer {w : List Char} (h : w ∈ integers) :
    segments w = [.lexeme ⟨w, .int⟩] := by
  have hcomment : Segment.comment? w = none := by
    obtain ⟨c, rest, rfl, hc⟩ := exists_start (k := .integer) h
    have hslash : ¬ ['/'] <+: c :: rest := fun hp => by
      obtain rfl := (List.cons_prefix_cons.1 hp).1
      exact absurd hc (by decide)
    exact Segment.comment?_eq_none_iff.2
      ⟨mt (List.IsPrefix.trans (by simp)) hslash, mt (List.IsPrefix.trans (by simp)) hslash⟩
  have hchosen : Segment.Chosen w (.lexeme ⟨w, .int⟩) :=
    .lexeme hcomment (Lexeme.first?_integer h)
  have hwhole : w = (Segment.lexeme ⟨w, .int⟩).text ++ [] := (List.append_nil w).symm
  rw [segments_of_chosen hchosen hwhole, segments]

/-- The integer tokens of all source texts are the numerals. -/
theorem exists_token_iff_numeral (text : String) :
    (∃ source, ∃ token ∈ (tokenize source).1, token.category = .int ∧ token.lexeme = text) ↔
      ∃ n : Numeral, n.text = text := by
  constructor
  · rintro ⟨source, token, hm, hc, rfl⟩
    obtain ⟨id, line, l, s, rfl, hl⟩ := exists_first?_of_mem_tokenize hm
    obtain ⟨n, hn⟩ := exists_numeral_of_mem_integers (Lexeme.mem_integers_of_first? hl hc)
    exact ⟨n, congrArg String.ofList hn⟩
  · rintro ⟨n, rfl⟩
    refine ⟨n.text, .ofLexeme 1 1 ⟨n.chars, .int⟩, ?_, rfl, rfl⟩
    rw [tokenize_eq, Numeral.text, String.toList_ofList, segments_integer n.chars_mem_integers]
    exact List.mem_cons_self

/-! ## Digits -/

def digitChars : List Char := "0123456789abcdefABCDEF".toList

theorem mem_digitChars {c : Char} (h : isHexDigit c = true) : c ∈ digitChars := by
  have hcodes : ∀ code ∈ List.range' 48 10 ++ List.range' 97 6 ++ List.range' 65 6,
      Char.ofNat code ∈ digitChars := by decide
  rw [← Char.ofNat_toNat c]
  refine hcodes c.toNat ?_
  simp only [isHexDigit, Char.isDigit, Bool.or_eq_true, Bool.and_eq_true, decide_eq_true_eq,
    Char.le_def, UInt32.le_iff_toNat_le, ge_iff_le] at h
  simpa [List.mem_range'_1, Nat.lt_succ_iff, or_assoc] using h

theorem isHexDigit_of_isDigit {c : Char} (h : c.isDigit = true) : isHexDigit c = true := by
  simp [isHexDigit, h]

theorem isDigit_of_isOctalDigit {c : Char} (h : isOctalDigit c = true) : c.isDigit = true := by
  simp only [isOctalDigit, Char.isDigit, Bool.and_eq_true, decide_eq_true_eq, Char.le_def] at *
  grind

/-- In every base, the reader knows the digits below it. -/
theorem digitValue?_eq_digitOf {c : Char} (h : isHexDigit c = true) {base : Nat}
    (hb : digitOf c < base) : digitValue? base c = some (digitOf c) := by
  have hall : digitChars.all (fun c => digitValue? 16 c = some (digitOf c)) = true := by decide
  have hc := of_decide_eq_true (List.all_eq_true.1 hall c (mem_digitChars h))
  unfold digitValue? at hc ⊢
  obtain ⟨hc, -⟩ := Option.filter_eq_some_iff.1 hc
  exact Option.filter_eq_some_iff.2 ⟨hc, by simpa using hb⟩

namespace Numeral

theorem digitOf_lt_base (n : Numeral) :
    ∀ c ∈ n.digits, isHexDigit c = true ∧ digitOf c < n.base := by
  have hall : digitChars.all (fun c => digitOf c < 16 ∧ (c.isDigit = true → digitOf c < 10) ∧
      (isOctalDigit c = true → digitOf c < 8)) = true := by decide
  have hsmall : ∀ c, isHexDigit c = true → digitOf c < 16 ∧ (c.isDigit = true → digitOf c < 10) ∧
      (isOctalDigit c = true → digitOf c < 8) := fun c hc =>
    of_decide_eq_true (List.all_eq_true.1 hall c (mem_digitChars hc))
  intro c hc
  cases n with
  | hexadecimal mark run marked valid =>
    exact ⟨valid c hc, (hsmall c (valid c hc)).1⟩
  | octal run valid =>
    have hoctal : isOctalDigit c = true := by
      rcases List.mem_cons.1 hc with rfl | hc
      · rfl
      · exact valid c hc
    have hhex := isHexDigit_of_isDigit (isDigit_of_isOctalDigit hoctal)
    exact ⟨hhex, (hsmall c hhex).2.2 hoctal⟩
  | decimal first run nonzero valid =>
    have hhex := isHexDigit_of_isDigit (valid c hc)
    exact ⟨hhex, (hsmall c hhex).2.1 (valid c hc)⟩

theorem digitValue?_of_mem (n : Numeral) :
    ∀ c ∈ n.digits, digitValue? n.base c = some (digitOf c) := fun c hc =>
  digitValue?_eq_digitOf (n.digitOf_lt_base c hc).1 (n.digitOf_lt_base c hc).2

end Numeral

/-! ## Sizes -/

/-- The reader adds up the digits by their places, whatever stands to the left of them. -/
theorem digitsValue?_eq {base : Nat} {digits : List Char}
    (h : ∀ c ∈ digits, digitValue? base c = some (digitOf c)) (high : Nat) :
    digitsValue? base high digits =
      some (high * base ^ digits.length + Nat.ofDigits base (digits.reverse.map digitOf)) := by
  induction digits generalizing high with
  | nil => simp [digitsValue?]
  | cons c digits ih =>
    rw [List.forall_mem_cons] at h
    have hplaces : Nat.ofDigits base ((c :: digits).reverse.map digitOf) =
        Nat.ofDigits base (digits.reverse.map digitOf) + base ^ digits.length * digitOf c := by
      rw [List.reverse_cons, List.map_append, Nat.ofDigits_append, List.length_map,
        List.length_reverse, List.map_singleton, Nat.ofDigits_singleton]
    rw [digitsValue?, h.1, hplaces]
    dsimp only
    rw [ih h.2, List.length_cons]
    ring_nf

theorem unsignedValue?_cons {base : Nat} {c : Char} (hsign : c ≠ '+') (digits : List Char) :
    unsignedValue? base (c :: digits) =
      (digitsValue? base 0 (c :: digits)).filter (· < sizeLimit) := by
  unfold unsignedValue?
  split
  · rename_i he
    exact absurd (List.cons.inj he).1 hsign
  · rfl

/-- No digit is a sign. -/
theorem ne_plus_of_digitValue? {base : Nat} {c : Char} (h : digitValue? base c = some (digitOf c)) :
    c ≠ '+' := by
  rintro rfl
  have hplus : digitValue? base '+' = none := rfl
  rw [hplus] at h
  exact absurd h (by simp)

theorem unsignedValue?_eq {base : Nat} {digits : List Char}
    (h : ∀ c ∈ digits, digitValue? base c = some (digitOf c)) :
    unsignedValue? base digits =
      if digits = [] ∨ 2 ^ 64 ≤ Nat.ofDigits base (digits.reverse.map digitOf) then none
      else some (Nat.ofDigits base (digits.reverse.map digitOf)) := by
  cases digits with
  | nil => rfl
  | cons c digits =>
    have hsign := ne_plus_of_digitValue? (h c List.mem_cons_self)
    rw [unsignedValue?_cons hsign, digitsValue?_eq h, Nat.zero_mul, Nat.zero_add,
      Option.filter_some]
    generalize Nat.ofDigits base ((c :: digits).reverse.map digitOf) = value
    by_cases hlarge : 2 ^ 64 ≤ value
    · rw [decide_eq_false (p := value < sizeLimit) (Nat.not_lt.2 hlarge), if_pos (Or.inr hlarge)]
      rfl
    · have hsmall : ¬ (c :: digits = [] ∨ 2 ^ 64 ≤ value) := by simpa using hlarge
      rw [decide_eq_true (p := value < sizeLimit) (Nat.lt_of_not_le hlarge), if_neg hsmall]
      rfl

namespace Numeral

theorem size?_eq_unsignedValue? (n : Numeral) : n.size? = unsignedValue? n.base n.digits :=
  (unsignedValue?_eq n.digitValue?_of_mem).symm

/-- The reader finds the value of every numeral that has digits and that 64 bits hold, and no value
for the others. -/
theorem literalValue?_text (n : Numeral) : literalValue? n.text = n.size? := by
  rw [size?_eq_unsignedValue?, literalValue?, text, String.toList_ofList]
  cases n with
  | hexadecimal mark run marked valid => rcases marked with rfl | rfl <;> rfl
  | octal run valid =>
    cases run with
    | nil => rfl
    | cons c run =>
      have hmark : c ≠ 'x' ∧ c ≠ 'X' ∧ c ≠ '+' := by
        refine ⟨?_, ?_, ?_⟩ <;> rintro rfl <;> exact absurd (valid _ List.mem_cons_self) (by decide)
      -- The leading zero adds nothing.
      have hzero : unsignedValue? 8 ('0' :: c :: run) = unsignedValue? 8 (c :: run) := by
        rw [unsignedValue?_cons (by decide), unsignedValue?_cons hmark.2.2]
        rfl
      refine Eq.trans ?_ hzero.symm
      simp only [chars]
      split
      · rename_i he
        exact absurd (List.cons.inj (List.cons.inj he).2).1 hmark.1
      · rename_i he
        exact absurd (List.cons.inj (List.cons.inj he).2).1 hmark.2.1
      · rename_i he
        obtain ⟨rfl, rfl⟩ := List.cons.inj (List.cons.inj he).2
        rfl
      · rename_i hno
        exact absurd rfl (hno c run)
  | decimal first run nonzero valid =>
    simp only [chars]
    split
    · rename_i he
      exact absurd (List.cons.inj he).1 nonzero
    · rename_i he
      exact absurd (List.cons.inj he).1 nonzero
    · rename_i he
      exact absurd (List.cons.inj he).1 nonzero
    · rfl

end Numeral
end FrontEnd
