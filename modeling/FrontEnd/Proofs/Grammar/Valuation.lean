import FrontEnd.Proofs.Grammar.Language
import Mathlib.Algebra.Order.BigOperators.Group.List
import Mathlib.Computability.Language
import Mathlib.Order.CompletePartialOrder

/-! # Languages of symbols

A valuation gives every symbol a language, and with it every text: the product of the
languages of its symbols. It is a model of rules when no right side has a word that its left side
lacks.

* `terminalsOf`: the symbols of right sides that nothing rewrites.
* `wordsOf`: the words over an alphabet that a symbol derives.
* `Valuation.Models.mem_language`: what a text derives is in its language, in every model.
* `derives_of_mem_language`: a text derives what its symbols derive one after the other.
* `models_wordsOf`, `wordsOf_le`: the words that the symbols derive are the least model.
-/

namespace FrontEnd
set_option autoImplicit false

/-! ## Terminals -/

section
variable {rules : List Rule}

/-- The symbols of right sides that are neither `ε` nor left sides. -/
def terminalsOf (rules : List Rule) : Set Symbol :=
  {t | (∃ rule ∈ rules, t ∈ rule.right) ∧ t ≠ epsilon ∧ ∀ rule ∈ rules, rule.left ≠ t}

instance (rules : List Rule) (t : Symbol) : Decidable (t ∈ terminalsOf rules) :=
  inferInstanceAs (Decidable ((∃ rule ∈ rules, t ∈ rule.right) ∧ t ≠ epsilon ∧
    ∀ rule ∈ rules, rule.left ≠ t))

theorem epsilon_not_mem_terminalsOf : epsilon ∉ terminalsOf rules := fun h => h.2.1 rfl

theorem mem_symbolsOf_of_mem_terminalsOf {t : Symbol} (h : t ∈ terminalsOf rules) :
    t ∈ symbolsOf rules := by
  obtain ⟨⟨rule, hr, ht⟩, -⟩ := h
  exact mem_symbolsOf_of_mem_right hr ht

theorem mem_terminalsOf_of_mem_symbolsOf {t : Symbol} (h : t ∈ symbolsOf rules) (hε : t ≠ epsilon)
    (hleft : ∀ rule ∈ rules, rule.left ≠ t) : t ∈ terminalsOf rules := by
  obtain ⟨rule, hr, ht⟩ := mem_symbolsOf.1 h
  exact ⟨⟨rule, hr, ht.resolve_left fun he => hleft rule hr he.symm⟩, hε, hleft⟩

end

/-! ## Models -/

abbrev Valuation := Symbol → Language Symbol

namespace Valuation

def language (L : Valuation) (text : List Symbol) : Language Symbol := (text.map L).prod

/-- Letters stand for themselves, `ε` may stand for nothing, and every rule holds as an inclusion.
Rules for `ε` itself are never used. -/
structure Models (L : Valuation) (rules : List Rule) (alphabet : Set Symbol) : Prop where
  letter : ∀ t ∈ alphabet, [t] ∈ L t
  vanish : [] ∈ L epsilon
  rule : ∀ rule ∈ rules, rule.left ≠ epsilon → L.language rule.right ≤ L rule.left

variable {L K : Valuation} {rules others : List Rule} {alphabet : Set Symbol}

@[simp] theorem language_nil : L.language [] = 1 := rfl

@[simp] theorem language_cons (symbol : Symbol) (text : List Symbol) :
    L.language (symbol :: text) = L symbol * L.language text := rfl

@[simp] theorem language_append (text more : List Symbol) :
    L.language (text ++ more) = L.language text * L.language more := by
  simp only [language, List.map_append, List.prod_append]

theorem language_mono {text : List Symbol} (h : ∀ symbol ∈ text, L symbol ≤ K symbol) :
    L.language text ≤ K.language text :=
  List.prod_le_prod' h

theorem language_congr {text : List Symbol} (h : ∀ symbol ∈ text, L symbol = K symbol) :
    L.language text = K.language text := by
  rw [language, List.map_congr_left h, language]

theorem language_update {text : List Symbol} {name : Symbol} (h : name ∉ text)
    (X : Language Symbol) : language (Function.update L name X) text = L.language text :=
  language_congr fun _ hm => Function.update_of_ne (ne_of_mem_of_not_mem hm h) ..

/-- Where `ε` stands for the empty word alone, its occurrences do not matter. -/
theorem language_filter (hε : L epsilon = 1) (text : List Symbol) :
    L.language (text.filter (· != epsilon)) = L.language text := by
  induction text with
  | nil => rfl
  | cons symbol text ih =>
    by_cases h : symbol = epsilon
    · subst h
      rw [List.filter_cons_of_neg (by simp), ih, language_cons, hε, one_mul]
    · rw [List.filter_cons_of_pos (by simpa using h), language_cons, language_cons, ih]

namespace Models

theorem mono (hL : L.Models rules alphabet) (h : ∀ rule ∈ others, rule ∈ rules) :
    L.Models others alphabet :=
  ⟨hL.letter, hL.vanish, fun rule hr => hL.rule rule (h rule hr)⟩

/-- A symbol that the rules do not use may stand for anything. -/
theorem update (hL : L.Models rules alphabet) {name : Symbol} (hrules : name ∉ symbolsOf rules)
    (hname : name ≠ epsilon) (hletter : name ∉ alphabet) (X : Language Symbol) :
    Models (Function.update L name X) rules alphabet where
  letter t ht := by
    rw [Function.update_of_ne (ne_of_mem_of_not_mem ht hletter)]
    exact hL.letter t ht
  vanish := by
    rw [Function.update_of_ne hname.symm]
    exact hL.vanish
  rule rule hr hε := by
    rw [Function.update_of_ne (ne_of_mem_of_not_mem (left_mem_symbolsOf hr) hrules),
      language_update fun h => hrules (mem_symbolsOf_of_mem_right hr h)]
    exact hL.rule rule hr hε

theorem word_mem_language (hL : L.Models rules alphabet) {word : List Symbol}
    (hw : ∀ t ∈ word, t ∈ alphabet) : word ∈ L.language word := by
  induction word with
  | nil => exact Language.nil_mem_one
  | cons t word ih =>
    exact Language.append_mem_mul (hL.letter t (hw t (by simp)))
      (ih fun other ho => hw other (by simp [ho]))

/-- A step back never leaves the language of the text. -/
theorem language_le_of_rewrites (hL : L.Models rules alphabet) {a b : List Symbol}
    (h : Rewrites rules a b) : L.language b ≤ L.language a := by
  cases h with
  | @rule rule hr hε before after =>
    rw [language_append, language_append, language_append, language_cons]
    gcongr
    exact hL.rule rule hr hε
  | vanish before after =>
    have h1 : (1 : Language Symbol) ≤ L epsilon := by
      intro word hw
      rw [(Language.mem_one word).1 hw]
      exact hL.vanish
    rw [language_append, language_append, language_cons]
    gcongr
    exact le_mul_of_one_le_left' h1

/-- In every model the language of a text has all words that the text derives. -/
theorem mem_language (hL : L.Models rules alphabet) {text word : List Symbol}
    (h : Derives rules text word) (hw : ∀ t ∈ word, t ∈ alphabet) : word ∈ L.language text := by
  induction h using Relation.ReflTransGen.head_induction_on with
  | refl => exact hL.word_mem_language hw
  | head hs _ ih => exact hL.language_le_of_rewrites hs ih

end Models
end Valuation

/-! ## Derived words -/

/-- The words over `alphabet` that a symbol derives. -/
def wordsOf (rules : List Rule) (alphabet : Set Symbol) : Valuation := fun symbol =>
  {word | Derives rules [symbol] word ∧ ∀ t ∈ word, t ∈ alphabet}

section
variable {rules others : List Rule} {alphabet : Set Symbol}

theorem mem_wordsOf {symbol : Symbol} {word : List Symbol} :
    word ∈ wordsOf rules alphabet symbol ↔
      Derives rules [symbol] word ∧ ∀ t ∈ word, t ∈ alphabet := Iff.rfl

theorem derives_of_mem_language {text word : List Symbol}
    (h : word ∈ (wordsOf rules alphabet).language text) :
    Derives rules text word ∧ ∀ t ∈ word, t ∈ alphabet := by
  induction text generalizing word with
  | nil =>
    rw [(Language.mem_one word).1 h]
    exact ⟨Derives.refl _, by simp⟩
  | cons symbol text ih =>
    obtain ⟨a, ha, b, hb, rfl⟩ := Language.mem_mul.1 h
    obtain ⟨hd, hw⟩ := ih hb
    exact ⟨ha.1.append hd, List.forall_mem_append.2 ⟨ha.2, hw⟩⟩

theorem models_wordsOf (rules : List Rule) (alphabet : Set Symbol) :
    (wordsOf rules alphabet).Models rules alphabet where
  letter t ht := ⟨Derives.refl _, by simpa using ht⟩
  vanish := ⟨derives_nil (by simp), by simp⟩
  rule rule hr hε word hword := by
    obtain ⟨hd, hw⟩ := derives_of_mem_language hword
    exact ⟨(derives_right hr hε).trans hd, hw⟩

/-- The derived words are the least model. -/
theorem wordsOf_le {L : Valuation} (hL : L.Models rules alphabet) (symbol : Symbol) :
    wordsOf rules alphabet symbol ≤ L symbol := by
  intro word hw
  have h := hL.mem_language hw.1 hw.2
  rwa [Valuation.language_cons, Valuation.language_nil, mul_one] at h

theorem wordsOf_mono (h : ∀ rule ∈ rules, rule ∈ others) (symbol : Symbol) :
    wordsOf rules alphabet symbol ≤ wordsOf others alphabet symbol :=
  wordsOf_le ((models_wordsOf others alphabet).mono h) symbol

/-- Neither the order of the rules nor repetitions matter. -/
theorem wordsOf_congr (h : ∀ rule, rule ∈ rules ↔ rule ∈ others) :
    wordsOf rules alphabet = wordsOf others alphabet := by
  funext symbol
  exact le_antisymm (wordsOf_mono (fun rule => (h rule).1) symbol)
    (wordsOf_mono (fun rule => (h rule).2) symbol)

theorem derives_iff_of_wordsOf_eq {symbol : Symbol}
    (h : wordsOf others alphabet symbol = wordsOf rules alphabet symbol) {word : List Symbol}
    (hword : ∀ t ∈ word, t ∈ alphabet) :
    Derives rules [symbol] word ↔ Derives others [symbol] word := by
  have hmem : word ∈ wordsOf rules alphabet symbol ↔ word ∈ wordsOf others alphabet symbol := by
    rw [h]
  rwa [mem_wordsOf, mem_wordsOf, and_iff_left hword, and_iff_left hword] at hmem

/-! ## The empty word -/

/-- `ε` stands for the empty word alone, and every other symbol for all words. -/
def Valuation.coarse : Valuation := Function.update ⊤ epsilon 1

theorem models_coarse (hε : epsilon ∉ alphabet) : Valuation.coarse.Models rules alphabet where
  letter t ht := by
    have hne : t ≠ epsilon := ne_of_mem_of_not_mem ht hε
    rw [Valuation.coarse, Function.update_of_ne hne]
    exact Set.mem_univ _
  vanish := by
    rw [Valuation.coarse, Function.update_self]
    exact Language.nil_mem_one
  rule rule _ hne := by
    rw [Valuation.coarse, Function.update_of_ne hne]
    exact le_top

/-- Unless it is a letter, `ε` derives nothing but the empty word. -/
theorem wordsOf_epsilon (hε : epsilon ∉ alphabet) : wordsOf rules alphabet epsilon = 1 := by
  refine le_antisymm ?_ fun word hw => ?_
  · have hcoarse : Valuation.coarse.Models rules alphabet := models_coarse hε
    have h := wordsOf_le hcoarse epsilon
    rwa [Valuation.coarse, Function.update_self] at h
  · rw [(Language.mem_one word).1 hw]
    exact (models_wordsOf rules alphabet).vanish

end
end FrontEnd
