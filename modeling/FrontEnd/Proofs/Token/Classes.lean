import FrontEnd.Proofs.Token.Values
import Mathlib.Computability.Language
import Mathlib.Data.List.TakeWhile

/-! # Token classes

The classes of lexemes as languages, independent of how they are recognised. Each recogniser finds
the longest text of its class at the front of its input.

* `TokenClass.language`: the texts of a class, written as a regular expression.
* `FindsLongest`: what a recogniser must do.
* `findsLongest_float?`, `findsLongest_integer?`, `findsLongest_quoted?`,
  `findsLongest_operator?`, `findsLongest_word?`: the five recognisers do it.
-/

namespace FrontEnd
set_option autoImplicit false

open scoped Computability

/-! ## Runs of characters -/

/-- The texts of one character with this property. -/
def oneOf (p : Char → Bool) : Language Char := {w | ∃ c, p c = true ∧ w = [c]}

section
variable {p : Char → Bool} {w rest : List Char}

theorem mem_oneOf_kstar : w ∈ (oneOf p)∗ ↔ ∀ c ∈ w, p c = true := by
  constructor
  · rintro ⟨parts, rfl, hparts⟩ c hc
    obtain ⟨part, hm, hc⟩ := List.mem_flatten.1 hc
    obtain ⟨d, hd, rfl⟩ := hparts part hm
    rwa [List.mem_singleton.1 hc]
  · intro h
    refine ⟨w.map fun c => [c], ?_, fun part hm => ?_⟩
    · rw [← List.flatMap_def, List.flatMap_singleton']
    · obtain ⟨c, hc, rfl⟩ := List.mem_map.1 hm
      exact ⟨c, h c hc, rfl⟩

/-- A run ends at the first character without the property. -/
theorem takeWhile_append_stop (hw : ∀ c ∈ w, p c = true) {c : Char} (hc : p c = false) :
    (w ++ c :: rest).takeWhile p = w := by
  rw [List.takeWhile_append_of_pos hw, List.takeWhile_cons_of_neg (by simp [hc]), List.append_nil]

theorem dropWhile_append_stop (hw : ∀ c ∈ w, p c = true) {c : Char} (hc : p c = false) :
    (w ++ c :: rest).dropWhile p = c :: rest := by
  rw [List.dropWhile_append_of_pos hw, List.dropWhile_cons_of_neg (by simp [hc])]

theorem length_le_takeWhile (hw : ∀ c ∈ w, p c = true) (rest : List Char) :
    w.length ≤ ((w ++ rest).takeWhile p).length := by
  rw [List.takeWhile_append_of_pos hw, List.length_append]
  omega

theorem prefix_cons_takeWhile (p : Char → Bool) (c : Char) (s : List Char) :
    c :: s.takeWhile p <+: c :: s :=
  (List.prefix_cons_inj c).2 (List.takeWhile_prefix p)

end

/-! ## The classes -/

inductive TokenClass where
  | float | integer | string | operator | word
deriving DecidableEq, Repr

namespace TokenClass

def digit : Language Char := oneOf Char.isDigit

def digits : Language Char := digit * digit∗

/-- `[0-9]+\.[0-9]+` or `[0-9]*\.[0-9]*[Ee][+-]?[0-9]+`. -/
def floats : Language Char :=
  digits * {['.']} * digits +
    digit∗ * {['.']} * digit∗ * oneOf (fun c => c == 'e' || c == 'E') *
      (1 + oneOf fun c => c == '+' || c == '-') * digits

/-- `0[xX][0-9a-fA-F]*`, `0[0-7]*` or `[1-9][0-9]*`. -/
def integers : Language Char :=
  {['0']} * oneOf (fun c => c == 'x' || c == 'X') * (oneOf isHexDigit)∗ +
    {['0']} * (oneOf isOctalDigit)∗ +
    oneOf (fun c => c.isDigit && c != '0') * digit∗

/-- All but `quote` between two of them. -/
def quotedBy (quote : Char) : Language Char := {[quote]} * (oneOf (· != quote))∗ * {[quote]}

def language : TokenClass → Language Char
  | float => floats
  | integer => integers
  | string => quotedBy '\x22' + quotedBy '\x27'
  | operator => {w | ∃ category, (w, category) ∈ operators}
  | word => oneOf isWordStart * (oneOf isWordChar)∗

end TokenClass

/-- Gives the longest prefix of its input that lies in the language, if any prefix does. -/
structure FindsLongest (L : Language Char) (find? : List Char → Option (List Char)) : Prop where
  sound : ∀ {s w}, find? s = some w → w ∈ L ∧ w <+: s
  longest : ∀ {w}, w ∈ L → ∀ rest, ∃ v, find? (w ++ rest) = some v ∧ w.length ≤ v.length

open TokenClass

/-! ## Floats -/

theorem mem_digits {w : List Char} : w ∈ digits ↔ w ≠ [] ∧ ∀ c ∈ w, c.isDigit = true := by
  constructor
  · rintro ⟨_, ⟨c, hc, rfl⟩, run, hrun, rfl⟩
    exact ⟨by simp, List.forall_mem_cons.2 ⟨hc, mem_oneOf_kstar.1 hrun⟩⟩
  · rintro ⟨hne, hw⟩
    obtain ⟨c, run, rfl⟩ := List.exists_cons_of_ne_nil hne
    rw [List.forall_mem_cons] at hw
    exact Language.mem_mul.2 ⟨[c], ⟨c, hw.1, rfl⟩, run, mem_oneOf_kstar.2 hw.2, rfl⟩

/-- Digits on both sides of the point. -/
def IsPlainFloat (w : List Char) : Prop :=
  ∃ whole ∈ digits, ∃ fraction ∈ digits, w = whole ++ '.' :: fraction

/-- A point with an exponent after it. -/
def IsExponentFloat (w : List Char) : Prop :=
  ∃ whole fraction e sign, ∃ exponent ∈ digits, (∀ c ∈ whole, c.isDigit = true) ∧
    (∀ c ∈ fraction, c.isDigit = true) ∧ (e = 'e' ∨ e = 'E') ∧
    (sign = [] ∨ sign = ['+'] ∨ sign = ['-']) ∧
    w = whole ++ '.' :: (fraction ++ e :: (sign ++ exponent))

theorem mem_floats {w : List Char} : w ∈ floats ↔ IsPlainFloat w ∨ IsExponentFloat w := by
  refine or_congr ⟨?_, ?_⟩ ⟨?_, ?_⟩
  · rintro ⟨_, ⟨whole, hw, _, rfl, rfl⟩, fraction, hf, rfl⟩
    exact ⟨whole, hw, fraction, hf, by simp⟩
  · rintro ⟨whole, hw, fraction, hf, rfl⟩
    exact ⟨_, ⟨whole, hw, _, rfl, rfl⟩, fraction, hf, by simp⟩
  · rintro ⟨_, ⟨_, ⟨_, ⟨_, ⟨whole, hw, _, rfl, rfl⟩, fraction, hf, rfl⟩, _, ⟨e, he, rfl⟩, rfl⟩, sign,
      hs, rfl⟩, exponent, hx, rfl⟩
    refine ⟨whole, fraction, e, sign, exponent, hx, mem_oneOf_kstar.1 hw, mem_oneOf_kstar.1 hf,
      by simpa using he, ?_, by simp⟩
    rcases hs with rfl | ⟨c, hc, rfl⟩
    · exact Or.inl rfl
    · exact Or.inr (by simpa using hc)
  · rintro ⟨whole, fraction, e, sign, exponent, hx, hw, hf, he, hs, rfl⟩
    refine ⟨_, ⟨_, ⟨_, ⟨_, ⟨whole, mem_oneOf_kstar.2 hw, _, rfl, rfl⟩, fraction,
      mem_oneOf_kstar.2 hf, rfl⟩, _, ⟨e, by simpa using he, rfl⟩, rfl⟩, sign, ?_, rfl⟩, exponent, hx,
      by simp⟩
    rcases hs with rfl | rfl | rfl
    · exact Or.inl rfl
    · exact Or.inr ⟨'+', rfl, rfl⟩
    · exact Or.inr ⟨'-', rfl, rfl⟩

theorem leadingSign_cases (s : List Char) :
    (leadingSign s = [] ∨ leadingSign s = ['+'] ∨ leadingSign s = ['-']) ∧ leadingSign s <+: s := by
  cases s with
  | nil => exact ⟨Or.inl rfl, List.prefix_rfl⟩
  | cons c s =>
    by_cases hplus : c = '+'
    · subst hplus
      exact ⟨Or.inr (Or.inl rfl), List.prefix_append ['+'] s⟩
    by_cases hminus : c = '-'
    · subst hminus
      exact ⟨Or.inr (Or.inr rfl), List.prefix_append ['-'] s⟩
    · have hnone : leadingSign (c :: s) = [] := by simp [leadingSign, hplus, hminus]
      rw [hnone]
      exact ⟨Or.inl rfl, List.nil_prefix⟩

/-- A digit is no sign. -/
theorem leadingSign_append {sign exponent : List Char}
    (hs : sign = [] ∨ sign = ['+'] ∨ sign = ['-']) (hx : exponent ∈ digits) (rest : List Char) :
    leadingSign (sign ++ (exponent ++ rest)) = sign := by
  rcases hs with rfl | rfl | rfl
  · obtain ⟨hne, hdigits⟩ := mem_digits.1 hx
    obtain ⟨c, exponent, rfl⟩ := List.exists_cons_of_ne_nil hne
    have hc := hdigits c List.mem_cons_self
    have hplus : c ≠ '+' := by
      rintro rfl
      exact absurd hc (by decide)
    have hminus : c ≠ '-' := by
      rintro rfl
      exact absurd hc (by decide)
    simp [leadingSign, hplus, hminus]
  · rfl
  · rfl

theorem takeWhile_digits_mem {s : List Char} (h : s.takeWhile Char.isDigit ≠ []) :
    s.takeWhile Char.isDigit ∈ digits :=
  mem_digits.2 ⟨h, fun _ => List.mem_takeWhile_imp⟩

theorem exists_of_exponent? {s w : List Char} (h : exponent? s = some w) :
    ∃ e sign, ∃ exponent ∈ digits, (e = 'e' ∨ e = 'E') ∧
      (sign = [] ∨ sign = ['+'] ∨ sign = ['-']) ∧ w = e :: (sign ++ exponent) ∧ w <+: s := by
  cases s with
  | nil => simp [exponent?] at h
  | cons e after =>
    rw [exponent?] at h
    split at h
    · rename_i hc
      obtain rfl := Option.some.inj h
      obtain ⟨hsign, rest, hrest⟩ := leadingSign_cases after
      rw [Bool.and_eq_true, Bool.or_eq_true, beq_iff_eq, beq_iff_eq] at hc
      have hne : ((after.drop (leadingSign after).length).takeWhile Char.isDigit) ≠ [] := by
        simpa using hc.2
      refine ⟨e, leadingSign after, _, takeWhile_digits_mem hne, hc.1, hsign, rfl, ?_⟩
      generalize leadingSign after = sign at hrest ⊢
      subst hrest
      rw [List.drop_left, List.cons_append, List.prefix_cons_inj, List.prefix_append_right_inj]
      exact List.takeWhile_prefix _
    · exact absurd h (by simp)

theorem exponent?_append {e : Char} {sign exponent : List Char} (he : e = 'e' ∨ e = 'E')
    (hs : sign = [] ∨ sign = ['+'] ∨ sign = ['-']) (hx : exponent ∈ digits) (rest : List Char) :
    exponent? (e :: (sign ++ (exponent ++ rest))) =
      some (e :: (sign ++ (exponent ++ rest).takeWhile Char.isDigit)) := by
  have hne : (exponent ++ rest).takeWhile Char.isDigit ≠ [] := by
    obtain ⟨hne, hdigits⟩ := mem_digits.1 hx
    rw [List.takeWhile_append_of_pos hdigits]
    exact List.append_ne_nil_of_left_ne_nil hne _
  rw [exponent?, leadingSign_append hs hx, List.drop_left]
  rw [if_pos (by simp [he, hne])]
  rfl

/-- The digits that a float starts with end at its point. -/
theorem dropWhile_whole {whole : List Char} (hw : ∀ c ∈ whole, c.isDigit = true)
    (rest : List Char) : (whole ++ '.' :: rest).dropWhile Char.isDigit = '.' :: rest :=
  dropWhile_append_stop hw (by decide)

theorem takeWhile_whole {whole : List Char} (hw : ∀ c ∈ whole, c.isDigit = true)
    (rest : List Char) : (whole ++ '.' :: rest).takeWhile Char.isDigit = whole :=
  takeWhile_append_stop hw (by decide)

theorem exists_of_exponentFloat? {s w : List Char} (h : exponentFloat? s = some w) :
    IsExponentFloat w ∧ w <+: s := by
  unfold exponentFloat? at h
  split at h
  · rename_i after hafter
    obtain ⟨tail, ht, rfl⟩ := Option.map_eq_some_iff.1 h
    obtain ⟨e, sign, exponent, hx, he, hs, rfl, rest, hrest⟩ := exists_of_exponent? ht
    refine ⟨⟨s.takeWhile Char.isDigit, after.takeWhile Char.isDigit, e, sign, exponent, hx,
      fun _ => List.mem_takeWhile_imp, fun _ => List.mem_takeWhile_imp, he, hs, by simp⟩, rest, ?_⟩
    calc s.takeWhile Char.isDigit ++ '.' :: after.takeWhile Char.isDigit ++
          e :: (sign ++ exponent) ++ rest
      _ = s.takeWhile Char.isDigit ++ '.' :: (after.takeWhile Char.isDigit ++
          (e :: (sign ++ exponent) ++ rest)) := by simp
      _ = s.takeWhile Char.isDigit ++ s.dropWhile Char.isDigit := by
        rw [hrest, List.takeWhile_append_dropWhile, hafter]
      _ = s := List.takeWhile_append_dropWhile
  · exact absurd h (by simp)

theorem exists_of_plainFloat? {s w : List Char} (h : plainFloat? s = some w) :
    IsPlainFloat w ∧ w <+: s := by
  unfold plainFloat? at h
  dsimp only at h
  split at h
  · rename_i after hafter
    split at h
    · exact absurd h (by simp)
    · rename_i hne
      rw [Bool.or_eq_true, List.isEmpty_iff, List.isEmpty_iff, not_or] at hne
      obtain rfl := Option.some.inj h
      refine ⟨⟨_, takeWhile_digits_mem hne.1, _, takeWhile_digits_mem hne.2, rfl⟩,
        after.dropWhile Char.isDigit, ?_⟩
      calc s.takeWhile Char.isDigit ++ '.' :: after.takeWhile Char.isDigit ++
            after.dropWhile Char.isDigit
        _ = s.takeWhile Char.isDigit ++ '.' :: (after.takeWhile Char.isDigit ++
            after.dropWhile Char.isDigit) := by simp
        _ = s.takeWhile Char.isDigit ++ s.dropWhile Char.isDigit := by
          rw [List.takeWhile_append_dropWhile, hafter]
        _ = s := List.takeWhile_append_dropWhile
  · exact absurd h (by simp)

theorem exponentFloat?_append {w : List Char} (hw : IsExponentFloat w) (rest : List Char) :
    ∃ v, exponentFloat? (w ++ rest) = some v ∧ w.length ≤ v.length := by
  obtain ⟨whole, fraction, e, sign, exponent, hx, hwhole, hfraction, he, hs, rfl⟩ := hw
  have hedigit : e.isDigit = false := by rcases he with rfl | rfl <;> decide
  have hlength := length_le_takeWhile (mem_digits.1 hx).2 rest
  refine ⟨whole ++ '.' :: (fraction ++ e :: (sign ++ (exponent ++ rest).takeWhile Char.isDigit)),
    ?_, ?_⟩
  · have hshape : whole ++ '.' :: (fraction ++ e :: (sign ++ exponent)) ++ rest =
        whole ++ '.' :: (fraction ++ e :: (sign ++ (exponent ++ rest))) := by simp
    rw [hshape, exponentFloat?, dropWhile_whole hwhole]
    show (exponent? _).map _ = _
    rw [dropWhile_append_stop hfraction hedigit, exponent?_append he hs hx,
      takeWhile_append_stop hfraction hedigit, takeWhile_whole hwhole]
    simp
  · simp only [List.length_append, List.length_cons] at hlength ⊢
    omega

theorem plainFloat?_append {w : List Char} (hw : IsPlainFloat w) (rest : List Char) :
    ∃ v, plainFloat? (w ++ rest) = some v ∧ w.length ≤ v.length := by
  obtain ⟨whole, hwhole, fraction, hfraction, rfl⟩ := hw
  have hlength := length_le_takeWhile (mem_digits.1 hfraction).2 rest
  have hshape : whole ++ '.' :: fraction ++ rest = whole ++ '.' :: (fraction ++ rest) := by simp
  have hpositive := List.length_pos_iff.2 (mem_digits.1 hfraction).1
  have hne : (fraction ++ rest).takeWhile Char.isDigit ≠ [] :=
    List.length_pos_iff.1 (Nat.lt_of_lt_of_le hpositive hlength)
  refine ⟨whole ++ '.' :: (fraction ++ rest).takeWhile Char.isDigit, ?_, ?_⟩
  · rw [hshape, plainFloat?, dropWhile_whole (mem_digits.1 hwhole).2,
      takeWhile_whole (mem_digits.1 hwhole).2]
    exact if_neg (by simp [(mem_digits.1 hwhole).1, hne])
  · simp only [List.length_append, List.length_cons] at hlength ⊢
    omega

/-- Where both forms of a float start, the one with the exponent is at least as long. -/
theorem length_plain_le_exponent {w v rest : List Char} (hw : IsPlainFloat w)
    (hv : exponentFloat? (w ++ rest) = some v) : w.length ≤ v.length := by
  obtain ⟨whole, hwhole, fraction, hfraction, rfl⟩ := hw
  have hlength := length_le_takeWhile (mem_digits.1 hfraction).2 rest
  have hshape : whole ++ '.' :: fraction ++ rest = whole ++ '.' :: (fraction ++ rest) := by simp
  rw [hshape, exponentFloat?, dropWhile_whole (mem_digits.1 hwhole).2,
    takeWhile_whole (mem_digits.1 hwhole).2] at hv
  obtain ⟨tail, -, rfl⟩ := Option.map_eq_some_iff.1 hv
  simp only [List.length_append, List.length_cons] at hlength ⊢
  omega

theorem findsLongest_float? : FindsLongest floats float? where
  sound h := by
    rcases Option.or_eq_some_iff.1 h with h | ⟨-, h⟩
    · exact (exists_of_exponentFloat? h).imp_left fun hw => mem_floats.2 (Or.inr hw)
    · exact (exists_of_plainFloat? h).imp_left fun hw => mem_floats.2 (Or.inl hw)
  longest {w} hw rest := by
    unfold float?
    rcases mem_floats.1 hw with hw | hw
    · cases hx : exponentFloat? (w ++ rest) with
      | some v => exact ⟨v, rfl, length_plain_le_exponent hw hx⟩
      | none => exact plainFloat?_append hw rest
    · obtain ⟨v, hv, hl⟩ := exponentFloat?_append hw rest
      exact ⟨v, by rw [hv]; rfl, hl⟩

/-! ## Integers -/

theorem mem_integers {w : List Char} :
    w ∈ integers ↔
      (∃ x run, (x = 'x' ∨ x = 'X') ∧ (∀ c ∈ run, isHexDigit c = true) ∧ w = '0' :: x :: run) ∨
      (∃ run, (∀ c ∈ run, isOctalDigit c = true) ∧ w = '0' :: run) ∨
      ∃ first run, first.isDigit = true ∧ first ≠ '0' ∧ (∀ c ∈ run, c.isDigit = true) ∧
        w = first :: run := by
  rw [← or_assoc]
  refine or_congr (or_congr ⟨?_, ?_⟩ ⟨?_, ?_⟩) ⟨?_, ?_⟩
  · rintro ⟨_, ⟨_, rfl, _, ⟨x, hx, rfl⟩, rfl⟩, run, hrun, rfl⟩
    exact ⟨x, run, by simpa using hx, mem_oneOf_kstar.1 hrun, rfl⟩
  · rintro ⟨x, run, hx, hrun, rfl⟩
    exact ⟨_, ⟨_, rfl, _, ⟨x, by simpa using hx, rfl⟩, rfl⟩, run, mem_oneOf_kstar.2 hrun, rfl⟩
  · rintro ⟨_, rfl, run, hrun, rfl⟩
    exact ⟨run, mem_oneOf_kstar.1 hrun, rfl⟩
  · rintro ⟨run, hrun, rfl⟩
    exact ⟨_, rfl, run, mem_oneOf_kstar.2 hrun, rfl⟩
  · rintro ⟨_, ⟨first, hfirst, rfl⟩, run, hrun, rfl⟩
    rw [Bool.and_eq_true, bne_iff_ne] at hfirst
    exact ⟨first, run, hfirst.1, hfirst.2, mem_oneOf_kstar.1 hrun, rfl⟩
  · rintro ⟨first, run, hdigit, hzero, hrun, rfl⟩
    exact ⟨_, ⟨first, by simp [hdigit, hzero], rfl⟩, run, mem_oneOf_kstar.2 hrun, rfl⟩

theorem integer?_hex {x : Char} (hx : x = 'x' ∨ x = 'X') (rest : List Char) :
    integer? ('0' :: x :: rest) = some ('0' :: x :: rest.takeWhile isHexDigit) := by
  rcases hx with rfl | rfl <;> rfl

theorem integer?_octal {rest : List Char} (hx : ∀ x ∈ rest.head?, x ≠ 'x' ∧ x ≠ 'X') :
    integer? ('0' :: rest) = some ('0' :: rest.takeWhile isOctalDigit) := by
  unfold integer?
  dsimp only
  rw [if_pos (by rfl)]
  split
  · exact absurd rfl (hx 'x' rfl).1
  · exact absurd rfl (hx 'X' rfl).2
  · rfl

theorem integer?_decimal {first : Char} (hfirst : first.isDigit = true) (hzero : first ≠ '0')
    (rest : List Char) :
    integer? (first :: rest) = some (first :: rest.takeWhile Char.isDigit) := by
  unfold integer?
  dsimp only
  rw [if_neg (by simpa using hzero), if_pos hfirst]

/-- An integer is recognised as one of its three forms. -/
theorem integer?_cons_cases (c : Char) (s : List Char) :
    (∃ x rest, c = '0' ∧ (x = 'x' ∨ x = 'X') ∧ s = x :: rest) ∨
      (c = '0' ∧ ∀ x ∈ s.head?, x ≠ 'x' ∧ x ≠ 'X') ∨
      (c.isDigit = true ∧ c ≠ '0') ∨ integer? (c :: s) = none := by
  by_cases hc : c = '0'
  · by_cases hx : ∃ x rest, (x = 'x' ∨ x = 'X') ∧ s = x :: rest
    · obtain ⟨x, rest, hx, hs⟩ := hx
      exact Or.inl ⟨x, rest, hc, hx, hs⟩
    · refine Or.inr (Or.inl ⟨hc, fun x hm => ?_⟩)
      obtain ⟨rest, rfl⟩ := List.head?_eq_some_iff.1 hm
      exact not_or.1 fun h => hx ⟨x, rest, h, rfl⟩
  · by_cases hd : c.isDigit = true
    · exact Or.inr (Or.inr (Or.inl ⟨hd, hc⟩))
    · refine Or.inr (Or.inr (Or.inr ?_))
      unfold integer?
      dsimp only
      rw [if_neg (by simpa using hc), if_neg hd]

theorem sound_integer? {s w : List Char} (h : integer? s = some w) : w ∈ integers ∧ w <+: s := by
  cases s with
  | nil => simp [integer?] at h
  | cons c s =>
    rw [mem_integers]
    rcases integer?_cons_cases c s with ⟨x, rest, rfl, hx, rfl⟩ | ⟨rfl, hs⟩ | ⟨hd, hz⟩ | hnone
    · rw [integer?_hex hx] at h
      obtain rfl := Option.some.inj h
      exact ⟨Or.inl ⟨x, _, hx, fun _ => List.mem_takeWhile_imp, rfl⟩,
        (List.prefix_cons_inj _).2 (prefix_cons_takeWhile _ x rest)⟩
    · rw [integer?_octal hs] at h
      obtain rfl := Option.some.inj h
      exact ⟨Or.inr (Or.inl ⟨_, fun _ => List.mem_takeWhile_imp, rfl⟩),
        prefix_cons_takeWhile _ _ s⟩
    · rw [integer?_decimal hd hz] at h
      obtain rfl := Option.some.inj h
      exact ⟨Or.inr (Or.inr ⟨c, _, hd, hz, fun _ => List.mem_takeWhile_imp, rfl⟩),
        prefix_cons_takeWhile _ c s⟩
    · rw [hnone] at h
      exact absurd h (by simp)

/-- A lone zero may be the start of a hexadecimal text, which is longer. -/
theorem longest_octal {run : List Char} (hrun : ∀ c ∈ run, isOctalDigit c = true)
    (rest : List Char) :
    ∃ v, integer? ('0' :: (run ++ rest)) = some v ∧ ('0' :: run).length ≤ v.length := by
  by_cases hx : ∀ x ∈ (run ++ rest).head?, x ≠ 'x' ∧ x ≠ 'X'
  · exact ⟨_, integer?_octal hx, Nat.succ_le_succ (length_le_takeWhile hrun rest)⟩
  · simp only [not_forall] at hx
    obtain ⟨x, hm, hx⟩ := hx
    rw [not_and_or, not_not, not_not] at hx
    cases run with
    | nil =>
      obtain ⟨rest, rfl⟩ := List.head?_eq_some_iff.1 hm
      exact ⟨_, integer?_hex hx rest, Nat.succ_le_succ (Nat.zero_le _)⟩
    | cons digit run =>
      -- No octal digit is an `x`.
      obtain rfl := Option.some.inj hm
      have hoctal := hrun digit List.mem_cons_self
      rcases hx with rfl | rfl <;> exact absurd hoctal (by decide)

theorem findsLongest_integer? : FindsLongest integers integer? where
  sound h := sound_integer? h
  longest {w} hw rest := by
    rcases mem_integers.1 hw with ⟨x, run, hx, hrun, rfl⟩ | ⟨run, hrun, rfl⟩ |
      ⟨first, run, hd, hz, hrun, rfl⟩
    · exact ⟨_, integer?_hex hx (run ++ rest),
        Nat.succ_le_succ (Nat.succ_le_succ (length_le_takeWhile hrun rest))⟩
    · exact longest_octal hrun rest
    · exact ⟨_, integer?_decimal hd hz (run ++ rest),
        Nat.succ_le_succ (length_le_takeWhile hrun rest)⟩

/-! ## Strings, operators and words -/

theorem mem_quotedBy {quote : Char} {w : List Char} :
    w ∈ quotedBy quote ↔ ∃ body, quote ∉ body ∧ w = quote :: (body ++ [quote]) := by
  constructor
  · rintro ⟨_, ⟨_, rfl, body, hbody, rfl⟩, _, rfl, rfl⟩
    refine ⟨body, fun hm => ?_, rfl⟩
    exact absurd (mem_oneOf_kstar.1 hbody quote hm) (by simp)
  · rintro ⟨body, hbody, rfl⟩
    refine ⟨_, ⟨_, rfl, body, mem_oneOf_kstar.2 fun c hc => ?_, rfl⟩, _, rfl, rfl⟩
    rw [bne_iff_ne]
    rintro rfl
    exact hbody hc

theorem mem_language_string {w : List Char} :
    w ∈ language string ↔
      ∃ quote body, isQuote quote = true ∧ quote ∉ body ∧ w = quote :: (body ++ [quote]) := by
  show w ∈ quotedBy '\x22' ∨ w ∈ quotedBy '\x27' ↔ _
  rw [mem_quotedBy, mem_quotedBy]
  constructor
  · rintro (⟨body, hbody, rfl⟩ | ⟨body, hbody, rfl⟩)
    · exact ⟨_, body, rfl, hbody, rfl⟩
    · exact ⟨_, body, rfl, hbody, rfl⟩
  · rintro ⟨quote, body, hquote, hbody, rfl⟩
    rw [isQuote, Bool.or_eq_true, beq_iff_eq, beq_iff_eq] at hquote
    rcases hquote with rfl | rfl
    · exact Or.inl ⟨body, hbody, rfl⟩
    · exact Or.inr ⟨body, hbody, rfl⟩

theorem quoted?_append {quote : Char} {body : List Char} (hquote : isQuote quote = true)
    (hbody : quote ∉ body) (rest : List Char) :
    quoted? (quote :: (body ++ quote :: rest)) = some (quote :: (body ++ [quote])) := by
  have htake : (body ++ quote :: rest).takeWhile (· != quote) = body :=
    takeWhile_append_stop (fun c hc => bne_iff_ne.2 (ne_of_mem_of_not_mem hc hbody)) (by simp)
  rw [quoted?, if_pos (by simp [hquote]), htake]
  rfl

theorem findsLongest_quoted? : FindsLongest (language string) quoted? where
  sound {s w} h := by
    cases s with
    | nil => simp [quoted?] at h
    | cons quote s =>
      by_cases hq : (isQuote quote && s.contains quote) = true
      · rw [Bool.and_eq_true, List.contains_iff_mem] at hq
        obtain ⟨body, after, rfl, hbody⟩ := List.eq_append_cons_of_mem hq.2
        rw [quoted?_append hq.1 hbody] at h
        obtain rfl := Option.some.inj h
        exact ⟨mem_language_string.2 ⟨quote, body, hq.1, hbody, rfl⟩, after, by simp⟩
      · rw [quoted?, if_neg hq] at h
        exact absurd h (by simp)
  longest {w} hw rest := by
    obtain ⟨quote, body, hquote, hbody, rfl⟩ := mem_language_string.1 hw
    refine ⟨quote :: (body ++ [quote]), ?_, Nat.le_refl _⟩
    have hshape : quote :: (body ++ [quote]) ++ rest = quote :: (body ++ quote :: rest) := by simp
    rw [hshape, quoted?_append hquote hbody]

/-- The longer operators come first. -/
theorem pairwise_operators : operators.Pairwise fun a b => b.1.length ≤ a.1.length := by
  decide

theorem findsLongest_operator? :
    FindsLongest (language operator) fun s => (operator? s).map (·.1) where
  sound {s w} h := by
    obtain ⟨found, hfound, rfl⟩ := Option.map_eq_some_iff.1 h
    refine ⟨⟨found.2, List.mem_of_find?_eq_some hfound⟩, ?_⟩
    have hfront : found.1.isPrefixOf s = true := by
      simpa using List.find?_some hfound
    exact List.isPrefixOf_iff_prefix.1 hfront
  longest {w} hw rest := by
    obtain ⟨category, hm⟩ := hw
    have hfront : w.isPrefixOf (w ++ rest) = true :=
      List.isPrefixOf_iff_prefix.2 (List.prefix_append w rest)
    have hsome : (operator? (w ++ rest)).isSome = true :=
      List.find?_isSome.2 ⟨(w, category), hm, hfront⟩
    obtain ⟨found, hfound⟩ := Option.isSome_iff_exists.1 hsome
    refine ⟨found.1, Option.map_eq_some_iff.2 ⟨found, hfound, rfl⟩, ?_⟩
    obtain ⟨-, before, after, hsplit, hbefore⟩ := List.find?_eq_some_iff_append.1 hfound
    have hpairwise := pairwise_operators
    rw [hsplit] at hm hpairwise
    rcases List.mem_append.1 hm with hm | hm
    · have hno := hbefore _ hm
      rw [hfront] at hno
      exact absurd hno (by simp)
    · rcases List.mem_cons.1 hm with rfl | hm
      · exact Nat.le_refl _
      · exact (List.pairwise_cons.1 (List.pairwise_append.1 hpairwise).2.1).1 _ hm

theorem mem_language_word {w : List Char} :
    w ∈ language word ↔
      ∃ first run, isWordStart first = true ∧ (∀ c ∈ run, isWordChar c = true) ∧
        w = first :: run := by
  constructor
  · rintro ⟨_, ⟨first, hfirst, rfl⟩, run, hrun, rfl⟩
    exact ⟨first, run, hfirst, mem_oneOf_kstar.1 hrun, rfl⟩
  · rintro ⟨first, run, hfirst, hrun, rfl⟩
    exact ⟨_, ⟨first, hfirst, rfl⟩, run, mem_oneOf_kstar.2 hrun, rfl⟩

theorem findsLongest_word? : FindsLongest (language word) word? where
  sound {s w} h := by
    cases s with
    | nil => simp [word?] at h
    | cons c s =>
      rw [word?] at h
      split at h
      · rename_i hc
        obtain rfl := Option.some.inj h
        exact ⟨mem_language_word.2 ⟨c, _, hc, fun _ => List.mem_takeWhile_imp, rfl⟩,
          prefix_cons_takeWhile _ c s⟩
      · exact absurd h (by simp)
  longest {w} hw rest := by
    obtain ⟨first, run, hfirst, hrun, rfl⟩ := mem_language_word.1 hw
    refine ⟨first :: (run ++ rest).takeWhile isWordChar, ?_, ?_⟩
    · rw [List.cons_append, word?, if_pos hfirst]
    · exact Nat.succ_le_succ (length_le_takeWhile hrun rest)

end FrontEnd
