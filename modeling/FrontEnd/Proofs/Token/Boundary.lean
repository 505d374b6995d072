import FrontEnd.Proofs.Token.Partition
import Mathlib.Data.List.Find

/-! # Where lexemes end

No lexeme but a string goes past a blank, and a string stops at its second quote. So what stands
behind a blank has no say in which lexeme stands before it.

* `FindsLongest.find?_congr`: a recogniser only sees which prefixes are texts of its class.
* `TokenClass.isVisible_of_mem_language`: texts of the classes hold no blanks, strings apart.
* `ClosesQuote`: a quote at the front is closed.
* `TokenClass.prefix_append_iff`: which texts stand at the front is settled before a blank.
* `Lexeme.first?_append`: the lexeme at the front is settled before a blank.
* `Lexeme.first?_text_append`: what stands behind a lexeme may be exchanged for a blank.
-/

namespace FrontEnd
set_option autoImplicit false

/-! ## Recognisers see prefixes -/

namespace FindsLongest
variable {L : Language Char} {find? : List Char → Option (List Char)}

theorem find?_eq_some_iff (h : FindsLongest L find?) {s w : List Char} :
    find? s = some w ↔ (w ∈ L ∧ w <+: s) ∧ ∀ v ∈ L, v <+: s → v.length ≤ w.length := by
  constructor
  · intro hw
    refine ⟨h.sound hw, fun v hv => ?_⟩
    rintro ⟨rest, rfl⟩
    obtain ⟨u, hu, hle⟩ := h.longest hv rest
    rw [hw] at hu
    exact Option.some.inj hu ▸ hle
  · rintro ⟨⟨hw, rest, rfl⟩, hlongest⟩
    obtain ⟨v, hv, hle⟩ := h.longest hw rest
    obtain ⟨hvL, hvs⟩ := h.sound hv
    have hstart := List.prefix_of_prefix_length_le (List.prefix_append w rest) hvs hle
    have hlength := Nat.le_antisymm hle (hlongest v hvL hvs)
    rw [hv, hstart.eq_of_length hlength]

theorem find?_congr (h : FindsLongest L find?) {s t : List Char}
    (hstart : ∀ w ∈ L, (w <+: s ↔ w <+: t)) : find? s = find? t := by
  refine Option.ext fun w => ?_
  rw [h.find?_eq_some_iff, h.find?_eq_some_iff]
  refine and_congr (and_congr_right fun hw => hstart w hw) ?_
  exact forall_congr' fun v => forall_congr' fun hv => imp_congr_left (hstart v hv)

end FindsLongest

theorem Lexeme.first?_congr {s t : List Char}
    (h : ∀ (k : TokenClass), ∀ w ∈ k.language, (w <+: s ↔ w <+: t)) : first? s = first? t := by
  have hoperator : operator? s = operator? t := by
    refine List.find?_congr fun entry hm => ?_
    rw [Bool.eq_iff_iff, List.isPrefixOf_iff_prefix, List.isPrefixOf_iff_prefix]
    exact h .operator entry.1 ⟨entry.2, hm⟩
  unfold first?
  rw [findsLongest_float?.find?_congr (h .float), findsLongest_integer?.find?_congr (h .integer),
    findsLongest_quoted?.find?_congr (h .string), hoperator,
    findsLongest_word?.find?_congr (h .word)]

/-! ## Blanks and visible characters -/

/-- A character of ASCII that leaves a mark. -/
def IsVisible (c : Char) : Prop := 33 ≤ c.toNat ∧ c.toNat ≤ 126

instance (c : Char) : Decidable (IsVisible c) := inferInstanceAs (Decidable (_ ∧ _))

theorem IsVisible.not_isBlank {c : Char} (h : IsVisible c) : Text.isBlank c = false := by
  have hall : ∀ range ∈ Text.blankRanges, range.2 < 33 ∨ 126 < range.1 := by decide
  refine List.any_eq_false.2 fun range hm => ?_
  have hrange := hall range hm
  rw [IsVisible] at h
  simp only [Bool.and_eq_true, decide_eq_true_eq]
  omega

theorem isVisible_of_isDigit {c : Char} (h : c.isDigit = true) : IsVisible c := by
  have hrange : 48 ≤ c.toNat ∧ c.toNat ≤ 57 := by
    simpa [Char.isDigit, UInt32.le_iff_toNat_le] using h
  rw [IsVisible]
  omega

theorem isVisible_of_isOctalDigit {c : Char} (h : isOctalDigit c = true) : IsVisible c := by
  have hrange : 48 ≤ c.toNat ∧ c.toNat ≤ 55 := by
    simpa [isOctalDigit, Char.le_def, UInt32.le_iff_toNat_le] using h
  rw [IsVisible]
  omega

theorem isVisible_of_isHexDigit {c : Char} (h : isHexDigit c = true) : IsVisible c := by
  have hrange : (c.isDigit = true ∨ 97 ≤ c.toNat ∧ c.toNat ≤ 102) ∨
      65 ≤ c.toNat ∧ c.toNat ≤ 70 := by
    simpa [isHexDigit, Char.le_def, UInt32.le_iff_toNat_le] using h
  rcases hrange with (hdigit | hrange) | hrange
  · exact isVisible_of_isDigit hdigit
  · exact ⟨by omega, by omega⟩
  · exact ⟨by omega, by omega⟩

theorem isVisible_of_isAlpha {c : Char} (h : c.isAlpha = true) : IsVisible c := by
  have hrange : ('A' ≤ c ∧ c ≤ 'Z') ∨ ('a' ≤ c ∧ c ≤ 'z') := by
    rcases (Bool.or_eq_true _ _).mp h with hupper | hlower
    · exact Or.inl (of_decide_eq_true hupper)
    · exact Or.inr (((Bool.and_eq_true _ _).mp hlower).imp of_decide_eq_true of_decide_eq_true)
  simp only [Char.le_def, UInt32.le_iff_toNat_le, Char.toNat_val, Char.reduceToNat] at hrange
  rw [IsVisible]
  omega

theorem isVisible_of_isWordStart {c : Char} (h : isWordStart c = true) : IsVisible c := by
  rw [isWordStart, Bool.or_eq_true, beq_iff_eq] at h
  rcases h with h | rfl
  · exact isVisible_of_isAlpha h
  · decide

theorem isVisible_of_isWordChar {c : Char} (h : isWordChar c = true) : IsVisible c := by
  rw [isWordChar, Char.isAlphanum, Bool.or_eq_true, Bool.or_eq_true, beq_iff_eq] at h
  rcases h with (h | h) | rfl
  · exact isVisible_of_isAlpha h
  · exact isVisible_of_isDigit h
  · decide

theorem ne_newline_of_not_isBlank {c : Char} (h : Text.isBlank c = false) : c ≠ '\n' := by
  rintro rfl
  exact absurd h (by decide)

theorem forall_mem_head?_cons {c : Char} (h : Text.isBlank c = true) (rest : List Char) :
    ∀ d ∈ (c :: rest).head?, Text.isBlank d = true :=
  fun _ hd => Option.some.inj hd ▸ h

/-- What stands at the front and lacks the first character of the tail ends before it. -/
theorem prefix_of_prefix_append {w s tail : List Char} (h : ∀ c ∈ tail.head?, c ∉ w)
    (hw : w <+: s ++ tail) : w <+: s := by
  rcases Nat.le_total w.length s.length with hle | hle
  · exact List.prefix_of_prefix_length_le hw (List.prefix_append s tail) hle
  · -- Otherwise the first character of the tail is in the text.
    obtain ⟨rest, rfl⟩ := List.prefix_of_prefix_length_le (List.prefix_append s tail) hw hle
    rw [List.prefix_append_right_inj] at hw
    cases rest with
    | nil => simp
    | cons c rest =>
      obtain ⟨more, rfl⟩ := hw
      exact absurd (by simp) (h c rfl)

theorem prefix_of_blank_append {w s tail : List Char} (hw : ∀ c ∈ w, Text.isBlank c = false)
    (htail : ∀ c ∈ tail.head?, Text.isBlank c = true) (h : w <+: s ++ tail) : w <+: s := by
  refine prefix_of_prefix_append (fun c hc hm => ?_) h
  have hblank := htail c hc
  rw [hw c hm] at hblank
  exact absurd hblank (by simp)

namespace TokenClass

theorem isVisible_of_floats {w : List Char} (hw : w ∈ floats) : ∀ c ∈ w, IsVisible c := by
  have hpoint : IsVisible '.' := by decide
  rcases mem_floats.1 hw with ⟨whole, hwhole, fraction, hfraction, rfl⟩ |
    ⟨whole, fraction, e, sign, exponent, hx, hwhole, hfraction, he, hs, rfl⟩
  · refine List.forall_mem_append.2 ⟨fun c hc => ?_, List.forall_mem_cons.2 ⟨hpoint, fun c hc => ?_⟩⟩
    · exact isVisible_of_isDigit ((mem_digits.1 hwhole).2 c hc)
    · exact isVisible_of_isDigit ((mem_digits.1 hfraction).2 c hc)
  · have hletter : IsVisible e := by rcases he with rfl | rfl <;> decide
    have hsign : ∀ c ∈ sign, IsVisible c := by
      rcases hs with rfl | rfl | rfl
      · exact List.forall_mem_nil _
      · exact List.forall_mem_singleton.2 (by decide)
      · exact List.forall_mem_singleton.2 (by decide)
    intro c hc
    simp only [List.mem_append, List.mem_cons] at hc
    rcases hc with hc | rfl | hc | rfl | hc | hc
    · exact isVisible_of_isDigit (hwhole c hc)
    · exact hpoint
    · exact isVisible_of_isDigit (hfraction c hc)
    · exact hletter
    · exact hsign c hc
    · exact isVisible_of_isDigit ((mem_digits.1 hx).2 c hc)

theorem isVisible_of_integers {w : List Char} (hw : w ∈ integers) : ∀ c ∈ w, IsVisible c := by
  have hzero : IsVisible '0' := by decide
  rcases mem_integers.1 hw with ⟨x, run, hx, hrun, rfl⟩ | ⟨run, hrun, rfl⟩ |
    ⟨first, run, hfirst, -, hrun, rfl⟩
  · have hletter : IsVisible x := by rcases hx with rfl | rfl <;> decide
    refine List.forall_mem_cons.2 ⟨hzero, List.forall_mem_cons.2 ⟨hletter, fun c hc => ?_⟩⟩
    exact isVisible_of_isHexDigit (hrun c hc)
  · exact List.forall_mem_cons.2 ⟨hzero, fun c hc => isVisible_of_isOctalDigit (hrun c hc)⟩
  · exact List.forall_mem_cons.2
      ⟨isVisible_of_isDigit hfirst, fun c hc => isVisible_of_isDigit (hrun c hc)⟩

/-- Only strings can hold blanks. -/
theorem isVisible_of_mem_language {k : TokenClass} (hk : k ≠ string) {w : List Char}
    (hw : w ∈ k.language) : ∀ c ∈ w, IsVisible c := by
  cases k with
  | float => exact isVisible_of_floats hw
  | integer => exact isVisible_of_integers hw
  | string => exact absurd rfl hk
  | operator =>
    obtain ⟨category, hm⟩ := hw
    have hall : (operators.all fun entry => entry.1.all (IsVisible ·)) = true := by decide
    exact fun c hc => of_decide_eq_true (List.all_eq_true.1 (List.all_eq_true.1 hall _ hm) c hc)
  | word =>
    obtain ⟨first, run, hfirst, hrun, rfl⟩ := mem_language_word.1 hw
    exact List.forall_mem_cons.2
      ⟨isVisible_of_isWordStart hfirst, fun c hc => isVisible_of_isWordChar (hrun c hc)⟩

theorem not_isBlank_of_isQuote {c : Char} (h : isQuote c = true) : Text.isBlank c = false := by
  rcases isQuote_iff.1 h with rfl | rfl <;> decide

/-- No text of a class starts with a blank. -/
theorem not_isBlank_of_starts {k : TokenClass} {c : Char} {w : List Char}
    (hw : c :: w ∈ k.language) : Text.isBlank c = false := by
  by_cases hk : k = string
  · subst hk
    obtain ⟨quote, body, hquote, -, he⟩ := mem_language_string.1 hw
    rw [(List.cons.inj he).1]
    exact not_isBlank_of_isQuote hquote
  · exact (isVisible_of_mem_language hk hw c List.mem_cons_self).not_isBlank

end TokenClass

/-! ## Strings -/

/-- If the text starts with a quote, it has that quote once more. -/
def ClosesQuote (s : List Char) : Prop :=
  ∀ quote rest, s = quote :: rest → isQuote quote = true → quote ∈ rest

namespace TokenClass

theorem eq_string_of_isQuote {k : TokenClass} {c : Char} {w : List Char}
    (hw : c :: w ∈ k.language) (hc : isQuote c = true) : k = string := by
  obtain ⟨d, rest, he, hstarts⟩ := exists_start hw
  obtain rfl := (List.cons.inj he).1
  rcases Nat.le_total k.rank string.rank with hle | hle
  · rcases eq_of_starts hstarts (show string.starts c = true from hc) hle with rfl | ⟨-, h | h⟩
    · rfl
    · exact absurd h (by decide)
    · exact absurd h (by decide)
  · rcases eq_of_starts (show string.starts c = true from hc) hstarts hle with rfl | ⟨h, -⟩
    · rfl
    · exact absurd h (by decide)

theorem closesQuote_of_prefix {k : TokenClass} {s w : List Char} (hw : w ∈ k.language)
    (hs : w <+: s) : ClosesQuote s := by
  rintro quote rest rfl hquote
  obtain ⟨c, w, rfl, -⟩ := exists_start hw
  obtain ⟨rfl, hrest⟩ := List.cons_prefix_cons.1 hs
  obtain rfl := eq_string_of_isQuote hw hquote
  obtain ⟨other, body, -, -, he⟩ := mem_language_string.1 hw
  obtain ⟨rfl, rfl⟩ := List.cons.inj he
  exact hrest.subset (by simp)

/-- Of two strings at the front of a text, neither goes on. -/
theorem eq_of_prefix_string {v w s : List Char} (hv : v ∈ language string)
    (hw : w ∈ language string) (hvs : v <+: s) (hws : w <+: s) : v = w := by
  have hfind : ∀ {w}, w ∈ language string → w <+: s → quoted? s = some w := by
    rintro w hw ⟨rest, rfl⟩
    obtain ⟨quote, body, hquote, hbody, rfl⟩ := mem_language_string.1 hw
    simpa using quoted?_append hquote hbody rest
  exact Option.some.inj ((hfind hv hvs).symm.trans (hfind hw hws))

/-! ## Texts at the front -/

theorem prefix_append_iff {k : TokenClass} {w s tail : List Char} (hw : w ∈ k.language)
    (hs : ClosesQuote s) (htail : ∀ c ∈ tail.head?, Text.isBlank c = true) :
    w <+: s ++ tail ↔ w <+: s := by
  refine ⟨fun hfront => ?_, fun hfront => hfront.trans (List.prefix_append s tail)⟩
  by_cases hk : k = string
  · subst hk
    obtain ⟨quote, body, hquote, hbody, rfl⟩ := mem_language_string.1 hw
    cases s with
    | nil =>
      obtain ⟨rest, rfl⟩ := hfront
      have hblank := htail quote rfl
      rw [not_isBlank_of_isQuote hquote] at hblank
      exact absurd hblank (by simp)
    | cons c s =>
      -- The text has a string of its own at the front, and there is only one.
      obtain rfl := (List.cons_prefix_cons.1 hfront).1
      obtain ⟨inner, after, rfl, hinner⟩ := List.eq_append_cons_of_mem (hs quote s rfl hquote)
      have hown : quote :: (inner ++ [quote]) <+: quote :: (inner ++ quote :: after) :=
        ⟨after, by simp⟩
      have he := eq_of_prefix_string hw (mem_language_string.2 ⟨quote, inner, hquote, hinner, rfl⟩)
        hfront (hown.trans (List.prefix_append _ tail))
      rwa [he]
  · exact prefix_of_blank_append
      (fun c hc => (isVisible_of_mem_language hk hw c hc).not_isBlank) htail hfront

end TokenClass

/-! ## Lexemes -/

namespace Lexeme
variable {s tail : List Char} {l : Lexeme}

theorem exists_mem_language_of_first? (h : first? s = some l) :
    ∃ k : TokenClass, l.text ∈ k.language ∧ l.text <+: s := by
  obtain ⟨k, hk, -⟩ := exists_class_of_first? h
  exact ⟨k, k.findsLongest_find?.sound hk⟩

theorem closesQuote_of_first? (h : first? s = some l) : ClosesQuote s := by
  obtain ⟨k, hm, hstart⟩ := exists_mem_language_of_first? h
  exact TokenClass.closesQuote_of_prefix hm hstart

theorem first?_append (hs : ClosesQuote s) (htail : ∀ c ∈ tail.head?, Text.isBlank c = true) :
    first? (s ++ tail) = first? s :=
  first?_congr fun _ _ hw => TokenClass.prefix_append_iff hw hs htail

/-- A lexeme is its own first lexeme. -/
theorem first?_text (h : first? s = some l) : first? l.text = some l := by
  have hstart := prefix_of_first? h
  rw [← h]
  refine first?_congr fun k w hw => ⟨fun hfront => hfront.trans hstart, fun hfront => ?_⟩
  exact List.prefix_of_prefix_length_le hfront hstart (length_le_of_first? h hfront hw)

theorem first?_text_append (h : first? s = some l)
    (htail : ∀ c ∈ tail.head?, Text.isBlank c = true) : first? (l.text ++ tail) = some l := by
  have htext := first?_text h
  rw [first?_append (closesQuote_of_first? htext) htail, htext]

theorem not_isBlank_of_first? {c : Char} (h : first? (c :: s) = some l) :
    Text.isBlank c = false := by
  obtain ⟨k, hm, hstart⟩ := exists_mem_language_of_first? h
  obtain ⟨d, rest, he, -⟩ := TokenClass.exists_start hm
  rw [he] at hm hstart
  rw [← (List.cons_prefix_cons.1 hstart).1]
  exact TokenClass.not_isBlank_of_starts hm

end Lexeme
end FrontEnd
