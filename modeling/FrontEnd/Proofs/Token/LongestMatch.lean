import FrontEnd.Proofs.Token.Classes

/-! # The longest match

The classes are tried one after the other and never compared by length. The lexeme is the longest
text of any class all the same, since only floats start like texts of a later class, and they are
longer than these.

* `TokenClass.starts`: what the texts of a class start with.
* `TokenClass.Classifies`: the category and the value that a class gives to its texts.
* `Lexeme.length_le_of_first?`: no class has a longer text at the front than the lexeme.
* `Lexeme.not_mem_of_first?`: without a lexeme, no class has a text at the front.
-/

namespace FrontEnd
set_option autoImplicit false

namespace TokenClass

/-! ## How texts start -/

def starts : TokenClass → Char → Bool
  | float, c => c.isDigit || c == '.'
  | integer, c => c.isDigit
  | string, c => isQuote c
  | operator, c => operators.any fun entry => entry.1.head? == some c
  | word, c => isWordStart c

theorem exists_start {k : TokenClass} {w : List Char} (h : w ∈ k.language) :
    ∃ c rest, w = c :: rest ∧ k.starts c = true := by
  cases k with
  | float =>
    have hdigits : ∀ {whole rest : List Char}, (∀ c ∈ whole, c.isDigit = true) →
        ∃ c tail, whole ++ '.' :: rest = c :: tail ∧ float.starts c = true := by
      intro whole rest hw
      cases whole with
      | nil => exact ⟨'.', rest, rfl, rfl⟩
      | cons c whole => exact ⟨c, _, rfl, by simp [starts, hw c List.mem_cons_self]⟩
    rcases mem_floats.1 h with ⟨whole, hw, fraction, -, rfl⟩ | ⟨whole, _, _, _, _, -, hw, -, -, -, rfl⟩
    · exact hdigits (mem_digits.1 hw).2
    · exact hdigits hw
  | integer =>
    rcases mem_integers.1 h with ⟨x, run, -, -, rfl⟩ | ⟨run, -, rfl⟩ | ⟨first, run, hd, -, -, rfl⟩
    · exact ⟨'0', _, rfl, rfl⟩
    · exact ⟨'0', _, rfl, rfl⟩
    · exact ⟨first, _, rfl, hd⟩
  | string =>
    obtain ⟨quote, body, hq, -, rfl⟩ := mem_language_string.1 h
    exact ⟨quote, _, rfl, hq⟩
  | operator =>
    obtain ⟨category, hm⟩ := h
    have hne : ∀ entry ∈ operators, entry.1 ≠ [] := by decide
    obtain ⟨c, rest, rfl⟩ := List.exists_cons_of_ne_nil (hne _ hm)
    exact ⟨c, rest, rfl, List.any_eq_true.2 ⟨_, hm, by simp⟩⟩
  | word =>
    obtain ⟨first, run, hf, -, rfl⟩ := mem_language_word.1 h
    exact ⟨first, run, rfl, hf⟩

theorem isQuote_iff {c : Char} : isQuote c = true ↔ c = '\x22' ∨ c = '\x27' := by
  rw [isQuote, Bool.or_eq_true, beq_iff_eq, beq_iff_eq]

/-- Operators start with none of the characters that numbers, strings and words start with, a point
apart. -/
theorem not_starts_of_operator {c : Char} (h : operator.starts c = true) :
    c.isDigit = false ∧ isQuote c = false ∧ isWordStart c = false := by
  have hall : ∀ entry ∈ operators,
      entry.1.head?.all (fun c => !c.isDigit && !isQuote c && !isWordStart c) = true := by decide
  obtain ⟨entry, hm, hc⟩ := List.any_eq_true.1 h
  have hfirst := hall entry hm
  rw [beq_iff_eq.1 hc] at hfirst
  simpa [and_assoc] using hfirst

theorem not_number_of_isQuote {c : Char} (h : isQuote c = true) :
    (c.isDigit || c == '.') = false ∧ isWordStart c = false := by
  rcases isQuote_iff.1 h with rfl | rfl <;> decide

/-- The order in which the classes are tried. -/
def rank : TokenClass → Nat
  | float => 0
  | integer => 1
  | string => 2
  | operator => 3
  | word => 4

/-- Only floats can start like the texts of a later class. -/
theorem eq_of_starts {k m : TokenClass} {c : Char} (hk : k.starts c = true)
    (hm : m.starts c = true) (hle : k.rank ≤ m.rank) :
    k = m ∨ k = float ∧ (m = integer ∨ m = operator) := by
  cases m with
  | float =>
    cases k with
    | float => exact Or.inl rfl
    | _ => exact absurd hle (by decide)
  | integer =>
    cases k with
    | float => exact Or.inr ⟨rfl, Or.inl rfl⟩
    | integer => exact Or.inl rfl
    | _ => exact absurd hle (by decide)
  | string =>
    obtain ⟨hnumber, -⟩ := not_number_of_isQuote hm
    cases k with
    | float => exact absurd hk (by simp [starts, hnumber])
    | integer =>
      rw [Bool.or_eq_false_iff] at hnumber
      exact absurd hk (by simp [starts, hnumber.1])
    | string => exact Or.inl rfl
    | _ => exact absurd hle (by decide)
  | operator =>
    obtain ⟨hdigit, hquote, -⟩ := not_starts_of_operator hm
    cases k with
    | float => exact Or.inr ⟨rfl, Or.inr rfl⟩
    | integer => exact absurd hk (by simp [starts, hdigit])
    | string => exact absurd hk (by simp [starts, hquote])
    | operator => exact Or.inl rfl
    | word => exact absurd hle (by decide)
  | word =>
    have hnumber := not_literal_of_isWordStart hm
    cases k with
    | float => exact absurd hk (by simp [starts, hnumber])
    | integer =>
      rw [Bool.or_eq_false_iff] at hnumber
      exact absurd hk (by simp [starts, hnumber.1])
    | string => exact absurd hm (by simp [starts, (not_number_of_isQuote hk).2])
    | operator => exact absurd hm (by simp [starts, (not_starts_of_operator hk).2.2])
    | word => exact Or.inl rfl

/-! ## How long texts are -/

/-- Of two prefixes, the one with a character that the other lacks is longer. -/
theorem length_lt_of_mem {v w s : List Char} (hv : v <+: s) (hw : w <+: s) {c : Char}
    (hc : c ∈ v) (hc' : c ∉ w) : w.length < v.length := by
  refine Nat.lt_of_not_le fun hle => hc' ?_
  exact (List.prefix_of_prefix_length_le hv hw hle).subset hc

theorem point_mem_of_floats {w : List Char} (h : w ∈ floats) : '.' ∈ w := by
  rcases mem_floats.1 h with ⟨whole, -, fraction, -, rfl⟩ | ⟨whole, _, _, _, _, -, -, -, -, -, rfl⟩
  · simp
  · simp

theorem exists_digit_of_floats {w : List Char} (h : w ∈ floats) : ∃ c ∈ w, c.isDigit = true := by
  have hdigits : ∀ {run : List Char}, run ∈ digits → ∃ c ∈ run, c.isDigit = true := by
    intro run hrun
    obtain ⟨hne, hall⟩ := mem_digits.1 hrun
    exact ⟨run.head hne, List.head_mem hne, hall _ (List.head_mem hne)⟩
  rcases mem_floats.1 h with ⟨whole, hw, fraction, -, rfl⟩ | ⟨whole, _, _, _, exponent, hx, -, -, -, -, rfl⟩
  · obtain ⟨c, hm, hc⟩ := hdigits hw
    exact ⟨c, by simp [hm], hc⟩
  · obtain ⟨c, hm, hc⟩ := hdigits hx
    exact ⟨c, by simp [hm], hc⟩

theorem point_not_mem_of_integers {w : List Char} (h : w ∈ integers) : '.' ∉ w := by
  have hrun : ∀ {p : Char → Bool} {run : List Char}, p '.' = false → (∀ c ∈ run, p c = true) →
      '.' ∉ run := by
    intro p run hp hrun hm
    rw [hrun '.' hm] at hp
    exact absurd hp (by simp)
  rcases mem_integers.1 h with ⟨x, run, hx, hr, rfl⟩ | ⟨run, hr, rfl⟩ | ⟨first, run, hd, -, hr, rfl⟩
  · have := hrun (by decide) hr
    rcases hx with rfl | rfl <;> simp [this]
  · have := hrun (by decide) hr
    simp [this]
  · have := hrun (p := Char.isDigit) (by decide) (List.forall_mem_cons.2 ⟨hd, hr⟩)
    exact this

theorem not_digit_of_operator {w : List Char} (h : w ∈ operator.language) :
    ∀ c ∈ w, c.isDigit = false := by
  have hall : ∀ entry ∈ operators, entry.1.all (!·.isDigit) = true := by decide
  obtain ⟨category, hm⟩ := h
  simpa using hall _ hm

/-! ## Recognisers -/

def find? : TokenClass → List Char → Option (List Char)
  | float => float?
  | integer => integer?
  | string => quoted?
  | operator => fun s => (operator? s).map (·.1)
  | word => word?

theorem findsLongest_find? (k : TokenClass) : FindsLongest k.language k.find? := by
  cases k with
  | float => exact findsLongest_float?
  | integer => exact findsLongest_integer?
  | string => exact findsLongest_quoted?
  | operator => exact findsLongest_operator?
  | word => exact findsLongest_word?

/-- What an earlier class finds is at least as long as what a later class finds. -/
theorem length_le_of_find? {k m : TokenClass} {s v w : List Char} (hv : k.find? s = some v)
    (hw : m.find? s = some w) (hle : k.rank ≤ m.rank) : w.length ≤ v.length := by
  obtain ⟨hvk, hvs⟩ := k.findsLongest_find?.sound hv
  obtain ⟨hwm, hws⟩ := m.findsLongest_find?.sound hw
  obtain ⟨c, v', rfl, hck⟩ := exists_start hvk
  obtain ⟨d, w', rfl, hdm⟩ := exists_start hwm
  obtain ⟨s, rfl⟩ : ∃ t, s = c :: t := by
    obtain ⟨t, ht⟩ := hvs
    exact ⟨_, ht.symm⟩
  obtain rfl : d = c := (List.cons_prefix_cons.1 hws).1
  rcases eq_of_starts hck hdm hle with rfl | ⟨rfl, rfl | rfl⟩
  · rw [hv] at hw
    rw [Option.some.inj hw]
  · have hpoint := point_not_mem_of_integers hwm
    exact Nat.le_of_lt (length_lt_of_mem hvs hws (point_mem_of_floats hvk) hpoint)
  · obtain ⟨x, hx, hd⟩ := exists_digit_of_floats hvk
    refine Nat.le_of_lt (length_lt_of_mem hvs hws hx fun hm => ?_)
    rw [not_digit_of_operator hwm x hm] at hd
    exact absurd hd (by simp)

/-- The category and the value of a token of this class. -/
def Classifies (k : TokenClass) (text : List Char) (category : Category)
    (value : Option String) : Prop :=
  match k with
  | float => category = .float ∧ value = some (String.ofList text)
  | integer => category = .int ∧ value = some (String.ofList text)
  | string => category = .string ∧
      ∃ quote body, text = quote :: (body ++ [quote]) ∧ value = some (String.ofList body)
  | operator => (text, category) ∈ operators ∧
      value = if category = .relation then some (String.ofList text) else none
  | word =>
      (String.ofList text ∈ Category.typeNames ∧ category = .typeName ∧
        value = some (String.ofList text)) ∨
      (String.ofList text ∈ Category.keywords ∧
        category = .keyword (String.ofList text).toUpper ∧ value = none) ∨
      (String.ofList text ∉ Category.typeNames ∧ String.ofList text ∉ Category.keywords ∧
        category = .identifier ∧ value = some (String.ofList text))

theorem classifies_operator {entry : List Char × Category} (h : entry ∈ operators) :
    operator.Classifies entry.1 entry.2 (Lexeme.value ⟨entry.1, entry.2⟩) := by
  have hall : ∀ entry ∈ operators, Lexeme.value ⟨entry.1, entry.2⟩ =
      if entry.2 = .relation then some (String.ofList entry.1) else none := by decide
  exact ⟨h, hall entry h⟩

theorem classifies_word (text : List Char) :
    word.Classifies text (.ofWord (String.ofList text))
      (Lexeme.value ⟨text, .ofWord (String.ofList text)⟩) := by
  unfold Classifies Lexeme.value Category.ofWord
  by_cases ht : String.ofList text ∈ Category.typeNames
  · exact Or.inl ⟨ht, by simp [ht], by simp [ht]⟩
  by_cases hk : String.ofList text ∈ Category.keywords
  · exact Or.inr (Or.inl ⟨hk, by simp [ht, hk], by simp [ht, hk]⟩)
  · exact Or.inr (Or.inr ⟨ht, hk, by simp [ht, hk], by simp [ht, hk]⟩)

end TokenClass

namespace Lexeme
open TokenClass

/-- The lexeme comes from a class that recognises it, and no class before that recognises
anything. -/
theorem exists_class_of_first? {s : List Char} {lexeme : Lexeme} (h : first? s = some lexeme) :
    ∃ k : TokenClass, k.find? s = some lexeme.text ∧
      k.Classifies lexeme.text lexeme.category lexeme.value ∧
      ∀ m : TokenClass, m.rank < k.rank → m.find? s = none := by
  unfold first? at h
  simp only [Option.or_eq_some_iff, Option.map_eq_some_iff, Option.map_eq_none_iff] at h
  rcases h with ⟨text, h, rfl⟩ | ⟨hfloat, h⟩
  · exact ⟨float, h, ⟨rfl, rfl⟩, fun m hm => absurd hm (Nat.not_lt_zero _)⟩
  rcases h with ⟨text, h, rfl⟩ | ⟨hinteger, h⟩
  · refine ⟨integer, h, ⟨rfl, rfl⟩, fun m hm => ?_⟩
    cases m with
    | float => exact hfloat
    | _ => exact absurd hm (by decide)
  rcases h with ⟨text, h, rfl⟩ | ⟨hstring, h⟩
  · refine ⟨string, h, ⟨rfl, ?_⟩, fun m hm => ?_⟩
    · obtain ⟨quote, body, -, -, rfl⟩ := mem_language_string.1 (findsLongest_quoted?.sound h).1
      exact ⟨quote, body, rfl, by simp [Lexeme.value]⟩
    · cases m with
      | float => exact hfloat
      | integer => exact hinteger
      | _ => exact absurd hm (by decide)
  rcases h with ⟨entry, h, rfl⟩ | ⟨hoperator, text, h, rfl⟩
  · refine ⟨operator, ?_, classifies_operator (List.mem_of_find?_eq_some h), fun m hm => ?_⟩
    · exact Option.map_eq_some_iff.2 ⟨entry, h, rfl⟩
    · cases m with
      | float => exact hfloat
      | integer => exact hinteger
      | string => exact hstring
      | _ => exact absurd hm (by decide)
  · refine ⟨word, h, classifies_word text, fun m hm => ?_⟩
    cases m with
    | float => exact hfloat
    | integer => exact hinteger
    | string => exact hstring
    | operator => exact Option.map_eq_none_iff.2 hoperator
    | word => exact absurd hm (by decide)

/-- No text of any class at the front is longer than the lexeme. -/
theorem length_le_of_first? {s w : List Char} {lexeme : Lexeme} (h : first? s = some lexeme)
    (hw : w <+: s) {m : TokenClass} (hm : w ∈ m.language) : w.length ≤ lexeme.text.length := by
  obtain ⟨k, hk, -, hbefore⟩ := exists_class_of_first? h
  obtain ⟨rest, rfl⟩ := hw
  obtain ⟨v, hv, hle⟩ := m.findsLongest_find?.longest hm rest
  have hrank : k.rank ≤ m.rank := by
    refine Nat.le_of_not_lt fun hlt => ?_
    rw [hbefore m hlt] at hv
    exact absurd hv (by simp)
  exact Nat.le_trans hle (length_le_of_find? hk hv hrank)

theorem prefix_of_first? {s : List Char} {lexeme : Lexeme} (h : first? s = some lexeme) :
    lexeme.text <+: s := by
  obtain ⟨k, hk, -⟩ := exists_class_of_first? h
  exact (k.findsLongest_find?.sound hk).2

theorem text_ne_nil_of_first? {s : List Char} {lexeme : Lexeme} (h : first? s = some lexeme) :
    lexeme.text ≠ [] := by
  obtain ⟨k, hk, -⟩ := exists_class_of_first? h
  obtain ⟨c, rest, he, -⟩ := exists_start (k.findsLongest_find?.sound hk).1
  rw [he]
  exact List.cons_ne_nil c rest

end Lexeme
end FrontEnd
