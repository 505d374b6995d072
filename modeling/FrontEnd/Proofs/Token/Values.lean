import FrontEnd.Proofs.Program.Reading

/-! # What tokens carry

Literals start with a digit or a point and names with a letter or an underscore, so a name is never
mistaken for a literal. The names of the keywords are none of the names of the other categories.

* `isLiteral_of_float?`, `isLiteral_of_integer?`, `isLiteral_of_word?`: how lexemes start.
* `Lexeme.IsRegular`, `Lexeme.isRegular_of_first?`: lexemes and their categories.
* `exists_lexeme_of_mem_tokenize`: every token comes from a lexeme of the text.
* `isLexical_of_mem_tokenize`: what the terminals of a source text carry.
* `isTemporaryName_value_of_mem_tokenize`: only names and strings can be names of temporaries.
-/

namespace FrontEnd
set_option autoImplicit false

/-! ## How lexemes start -/

theorem isLiteral_ofList_cons (c : Char) (rest : List Char) :
    isLiteral (String.ofList (c :: rest)) = (c.isDigit || c == '.') := by
  simp [isLiteral]

/-- Digits and a point. -/
theorem isLiteral_digits_point (s rest : List Char) :
    isLiteral (String.ofList (s.takeWhile Char.isDigit ++ '.' :: rest)) = true := by
  cases s with
  | nil => simp [isLiteral]
  | cons c s =>
    by_cases hc : c.isDigit = true
    · simp [isLiteral, hc]
    · simp [isLiteral, hc]

theorem isLiteral_of_float? {s text : List Char} (h : float? s = some text) :
    isLiteral (String.ofList text) = true := by
  rcases Option.or_eq_some_iff.1 h with h | ⟨-, h⟩
  · unfold exponentFloat? at h
    split at h
    · obtain ⟨exponent, -, rfl⟩ := Option.map_eq_some_iff.1 h
      rw [List.append_assoc, List.cons_append]
      exact isLiteral_digits_point ..
    · simp at h
  · unfold plainFloat? at h
    split at h
    · dsimp only at h
      split at h
      · simp at h
      · obtain rfl := Option.some.inj h
        exact isLiteral_digits_point ..
    · simp at h

theorem isLiteral_of_integer? {s text : List Char} (h : integer? s = some text) :
    isLiteral (String.ofList text) = true := by
  cases s with
  | nil => simp [integer?] at h
  | cons c s =>
    unfold integer? at h
    dsimp only at h
    split at h
    · split at h <;> obtain rfl := Option.some.inj h <;> rw [isLiteral_ofList_cons] <;> rfl
    · split at h
      · rename_i hc
        obtain rfl := Option.some.inj h
        rw [isLiteral_ofList_cons, hc]
        rfl
      · simp at h

theorem not_literal_of_isWordStart {c : Char} (h : isWordStart c = true) :
    (c.isDigit || c == '.') = false := by
  have hpoint : c ≠ '.' := by
    rintro rfl
    exact absurd h (by decide)
  have hdigit : c.isDigit = false := by
    rw [isWordStart, Bool.or_eq_true, beq_iff_eq] at h
    rcases h with h | rfl
    · change (decide (65 ≤ c.val ∧ c.val ≤ 90) ||
        (decide (97 ≤ c.val) && decide (c.val ≤ 122))) = true at h
      show (decide (48 ≤ c.val) && decide (c.val ≤ 57)) = false
      simp at h ⊢
      grind
    · decide
  simp [hpoint, hdigit]

theorem isLiteral_of_word? {s text : List Char} (h : word? s = some text) :
    isLiteral (String.ofList text) = false := by
  cases s with
  | nil => simp [word?] at h
  | cons c s =>
    rw [word?] at h
    split at h
    · rename_i hc
      obtain rfl := Option.some.inj h
      rw [isLiteral_ofList_cons]
      exact not_literal_of_isWordStart hc
    · simp at h

/-! ## Lexemes -/

namespace Lexeme

/-- The category fits the text. -/
structure IsRegular (lexeme : Lexeme) : Prop where
  literal : lexeme.category = .int ∨ lexeme.category = .float →
    isLiteral (String.ofList lexeme.text) = true
  name : lexeme.category = .identifier → isLiteral (String.ofList lexeme.text) = false
  keyword : ∀ capitals, lexeme.category = .keyword capitals →
    ∃ word ∈ Category.keywords, capitals = word.toUpper

theorem isRegular_of_first? {s : List Char} {lexeme : Lexeme} (h : first? s = some lexeme) :
    lexeme.IsRegular := by
  unfold first? at h
  simp only [Option.or_eq_some_iff, Option.map_eq_some_iff] at h
  rcases h with ⟨text, h, rfl⟩ | ⟨-, h⟩
  · exact ⟨fun _ => isLiteral_of_float? h, by simp, by simp⟩
  rcases h with ⟨text, h, rfl⟩ | ⟨-, h⟩
  · exact ⟨fun _ => isLiteral_of_integer? h, by simp, by simp⟩
  rcases h with ⟨text, h, rfl⟩ | ⟨-, h⟩
  · exact ⟨by simp, by simp, by simp⟩
  rcases h with ⟨operator, h, rfl⟩ | ⟨-, text, h, rfl⟩
  · have hcategory : ∀ operator ∈ operators, operator.2 ≠ .int ∧ operator.2 ≠ .float ∧
        operator.2 ≠ .identifier ∧ ∀ capitals, operator.2 ≠ .keyword capitals := by
      simp [operators]
    obtain ⟨h1, h2, h3, h4⟩ := hcategory operator (List.mem_of_find?_eq_some h)
    exact ⟨fun hc => (hc.elim h1 h2).elim, fun hc => (h3 hc).elim, fun _ hc => (h4 _ hc).elim⟩
  · have hname := isLiteral_of_word? h
    rcases Category.ofWord_cases (String.ofList text) with hc | ⟨word, hm, hc⟩ | hc
    · exact ⟨by simp [hc], fun _ => hname, by simp [hc]⟩
    · refine ⟨by simp [hc], fun _ => hname, fun capitals hk => ⟨word, hm, ?_⟩⟩
      rw [hc] at hk
      exact (Category.keyword.inj hk).symm
    · exact ⟨by simp [hc], fun _ => hname, by simp [hc]⟩

/-- Only names and strings can carry the name of a temporary. -/
theorem isTemporaryName_value {s : List Char} {lexeme : Lexeme} (h : first? s = some lexeme)
    (hi : lexeme.category ≠ .identifier) (hs : lexeme.category ≠ .string) {value : String}
    (hv : lexeme.value = some value) : isTemporaryName value = false := by
  unfold first? at h
  simp only [Option.or_eq_some_iff, Option.map_eq_some_iff] at h
  rcases h with ⟨text, h, rfl⟩ | ⟨-, h⟩
  · obtain rfl := Option.some.inj hv
    exact isTemporaryName_of_isLiteral (isLiteral_of_float? h)
  rcases h with ⟨text, h, rfl⟩ | ⟨-, h⟩
  · obtain rfl := Option.some.inj hv
    exact isTemporaryName_of_isLiteral (isLiteral_of_integer? h)
  rcases h with ⟨text, h, rfl⟩ | ⟨-, h⟩
  · exact absurd rfl hs
  rcases h with ⟨operator, h, rfl⟩ | ⟨-, text, h, rfl⟩
  · have hall : ∀ operator ∈ operators,
        ∀ value ∈ (⟨operator.1, operator.2⟩ : Lexeme).value, isTemporaryName value = false := by
      decide +kernel
    exact hall operator (List.mem_of_find?_eq_some h) value hv
  · have htypes : ∀ word ∈ Category.typeNames, isTemporaryName word = false := by decide +kernel
    by_cases ht : String.ofList text ∈ Category.typeNames
    · have hc : Category.ofWord (String.ofList text) = .typeName := if_pos ht
      simp only [Lexeme.value, hc, Option.some.injEq] at hv
      exact hv ▸ htypes _ ht
    · by_cases hk : String.ofList text ∈ Category.keywords
      · simp [Lexeme.value, Category.ofWord, ht, hk] at hv
      · exact absurd (by simp [Category.ofWord, ht, hk]) hi

/-- Keywords do not pass for any of these categories. -/
theorem IsRegular.category_eq {lexeme : Lexeme} (h : lexeme.IsRegular) {category : Category}
    (hm : category ∈ [.int, .float, .identifier, .typeName, .relation])
    (hn : lexeme.category.name = category.name) : lexeme.category = category := by
  have hkeyword : ∀ word ∈ Category.keywords,
      word.toUpper ∉ ["INT", "FLOAT", "ID", "TYPE", "RELOP"] := by decide +kernel
  cases hc : lexeme.category with
  | keyword capitals =>
    obtain ⟨word, hw, rfl⟩ := h.keyword capitals hc
    refine absurd ?_ (hkeyword word hw)
    have hname : category.name ∈ ["INT", "FLOAT", "ID", "TYPE", "RELOP"] :=
      List.mem_map_of_mem (f := Category.name) hm
    rw [← hn, hc] at hname
    exact hname
  | _ =>
    rw [hc] at hn
    simp only [List.mem_cons, List.not_mem_nil, or_false] at hm
    rcases hm with rfl | rfl | rfl | rfl | rfl <;>
      first | rfl | exact absurd hn (by decide)

end Lexeme

/-! ## Tokens -/

theorem Segment.first?_of_first {c : Char} {s : List Char} {l : Lexeme}
    (h : first c s = lexeme l) : Lexeme.first? (c :: s) = some l := by
  unfold first at h
  split at h
  · simp at h
  split at h
  · simp at h
  split at h
  · rename_i comment hc
    subst h
    unfold comment? at hc
    split at hc
    · simp at hc
    · split at hc <;> simp at hc
    · simp at hc
  · split at h
    · rename_i l' hl
      obtain rfl := lexeme.inj h
      exact hl
    · simp at h

theorem exists_first?_of_mem_segments {s : List Char} {l : Lexeme}
    (h : Segment.lexeme l ∈ segments s) : ∃ s, Lexeme.first? s = some l := by
  fun_induction segments s with
  | case1 => simp at h
  | case2 c s segment ih =>
    rcases List.mem_cons.1 h with h | h
    · exact ⟨c :: s, Segment.first?_of_first h.symm⟩
    · exact ih h

theorem exists_lexeme_of_mem_tokensFrom {parts : List Segment} {id line : Nat} {token : Token}
    (h : token ∈ tokensFrom id line parts) :
    ∃ id line l, Segment.lexeme l ∈ parts ∧ token = .ofLexeme id line l := by
  induction parts generalizing id line with
  | nil => simp [tokensFrom] at h
  | cons segment parts ih =>
    have hrest : ∀ id line, token ∈ tokensFrom id line parts →
        ∃ id line l, Segment.lexeme l ∈ segment :: parts ∧ token = .ofLexeme id line l := by
      intro id line hm
      obtain ⟨id, line, l, hl, ht⟩ := ih hm
      exact ⟨id, line, l, List.mem_cons_of_mem _ hl, ht⟩
    unfold tokensFrom at h
    split at h
    · rename_i l
      rcases List.mem_cons.1 h with rfl | h
      · exact ⟨id, line, l, List.mem_cons_self, rfl⟩
      · exact hrest _ _ h
    · exact hrest _ _ h

/-- Every token of a source text comes from the first lexeme of some characters. -/
theorem exists_first?_of_mem_tokenize {source : String} {token : Token}
    (h : token ∈ (tokenize source).1) :
    ∃ id line l s, token = .ofLexeme id line l ∧ Lexeme.first? s = some l := by
  obtain ⟨id, line, l, hm, rfl⟩ := exists_lexeme_of_mem_tokensFrom h
  obtain ⟨s, hs⟩ := exists_first?_of_mem_segments hm
  exact ⟨id, line, l, s, rfl, hs⟩

/-- Every token of a source text comes from a lexeme whose category fits. -/
theorem exists_lexeme_of_mem_tokenize {source : String} {token : Token}
    (h : token ∈ (tokenize source).1) :
    ∃ id line l, token = .ofLexeme id line l ∧ l.IsRegular := by
  obtain ⟨id, line, l, s, rfl, hs⟩ := exists_first?_of_mem_tokenize h
  exact ⟨id, line, l, rfl, Lexeme.isRegular_of_first? hs⟩

theorem isLexical_of_mem_tokenize {source : String} {token : Token}
    (h : token ∈ (tokenize source).1)
    (hn : token.category = .identifier → isTemporaryName token.lexeme = false) :
    (Terminal.ofToken token).IsLexical := by
  obtain ⟨id, line, l, rfl, hl⟩ := exists_lexeme_of_mem_tokenize h
  refine ⟨fun hs => ?_, fun hs => ?_, fun hs => ?_⟩
  · have hc : l.category = .int ∨ l.category = .float :=
      hs.imp (hl.category_eq (by simp)) (hl.category_eq (by simp))
    refine ⟨String.ofList l.text, ?_, hl.literal hc⟩
    rcases hc with hc | hc <;> simp [Terminal.ofToken, Token.ofLexeme, Lexeme.value, hc]
  · have hc : l.category = .identifier := hl.category_eq (by simp) hs
    refine ⟨String.ofList l.text, ?_, hl.name hc, hn hc⟩
    simp [Terminal.ofToken, Token.ofLexeme, Lexeme.value, hc]
  · have hc : l.category = .typeName ∨ l.category = .relation :=
      hs.imp (hl.category_eq (by simp)) (hl.category_eq (by simp))
    refine ⟨String.ofList l.text, ?_⟩
    rcases hc with hc | hc <;> simp [Terminal.ofToken, Token.ofLexeme, Lexeme.value, hc]

theorem isTemporaryName_value_of_mem_tokenize {source : String} {token : Token}
    (h : token ∈ (tokenize source).1)
    (hn : token.category = .identifier → isTemporaryName token.lexeme = false)
    (hs : token.category ≠ .string) {value : String} (hv : token.value = some value) :
    isTemporaryName value = false := by
  obtain ⟨id, line, l, s, rfl, hfirst⟩ := exists_first?_of_mem_tokenize h
  by_cases hi : l.category = .identifier
  · have hvalue : l.value = some (String.ofList l.text) := by rw [Lexeme.value, hi]
    obtain rfl := Option.some.inj (hvalue.symm.trans hv)
    exact hn hi
  · exact Lexeme.isTemporaryName_value hfirst hi hs hv

end FrontEnd
