import FrontEnd.Grammar.LeftFactoring
import FrontEnd.Proofs.Grammar.Valuation

/-! # Left factoring keeps the language

A merge of the rules that share their start adds one name and changes the words of no other symbol:
the name stands for what followed the shared start.

* `Shared.mem_factor`: the rules after a merge.
* `Shared.merged`: what the symbols stand for after a merge.
* `wordsOf_factor`: one merge keeps the words of every symbol but the new one.
* `wordsOf_leftFactor`: so do all merges.
-/

namespace FrontEnd
set_option autoImplicit false

theorem Rule.startsWith_iff {left head : Symbol} {rule : Rule} :
    rule.startsWith left head = true ↔ ∃ rest, rule = ⟨left, head :: rest⟩ := by
  obtain ⟨symbol, right⟩ := rule
  cases right with
  | nil => simp [Rule.startsWith]
  | cons first rest => simp [Rule.startsWith]

theorem language_orEpsilon {L : Valuation} (hε : L epsilon = 1) (rest : List Symbol) :
    L.language (orEpsilon rest) = L.language rest := by
  cases rest with
  | nil => simp [orEpsilon, hε]
  | cons symbol rest => rfl

theorem mem_orEpsilon {symbol : Symbol} {rest : List Symbol} (h : symbol ∈ rest) :
    symbol ∈ orEpsilon rest := by
  rwa [orEpsilon, if_neg (by simpa using List.ne_nil_of_mem h)]

/-! ## One merge -/

namespace Shared
variable {rules : List Rule} {s : Shared} {name : Symbol} {alphabet : Set Symbol}

theorem mem_rests (hs : firstShared? rules = some s) {rest : List Symbol} :
    rest ∈ s.rests ↔ ⟨s.left, s.head :: rest⟩ ∈ rules := by
  obtain ⟨hrules, -, -, hbefore⟩ := firstShared?_eq_some hs
  have hnone : ⟨s.left, s.head :: rest⟩ ∉ s.before := fun hm => by
    have hfalse := hbefore _ hm
    rw [Rule.startsWith_iff.2 ⟨rest, rfl⟩] at hfalse
    exact absurd hfalse (by simp)
  have hafter : rest ∈ (s.after.filter (Rule.startsWith s.left s.head)).map (·.right.tail) ↔
      ⟨s.left, s.head :: rest⟩ ∈ s.after := by
    rw [List.mem_map]
    constructor
    · rintro ⟨rule, hm, rfl⟩
      obtain ⟨hm, hstart⟩ := List.mem_filter.1 hm
      obtain ⟨other, rfl⟩ := Rule.startsWith_iff.1 hstart
      exact hm
    · exact fun hm => ⟨_, List.mem_filter.2 ⟨hm, Rule.startsWith_iff.2 ⟨rest, rfl⟩⟩, rfl⟩
  rw [rests, List.mem_cons, hafter, hrules, List.mem_append, List.mem_cons, or_iff_right hnone]
  simp

theorem mem_of_firstShared? (hs : firstShared? rules = some s) :
    ⟨s.left, s.head :: s.rest⟩ ∈ rules :=
  (mem_rests hs).1 List.mem_cons_self

/-- Only rules that share the start are taken out. -/
theorem mem_kept (hs : firstShared? rules = some s) {rule : Rule} :
    rule ∈ rules ∧ rule.startsWith s.left s.head = false ↔
      rule ∈ s.before ∨ rule ∈ s.after.filter fun rule => !rule.startsWith s.left s.head := by
  obtain ⟨hrules, -, -, hbefore⟩ := firstShared?_eq_some hs
  rw [hrules, List.mem_append, List.mem_cons, List.mem_filter, Bool.not_eq_true']
  constructor
  · rintro ⟨hm | rfl | hm, hstart⟩
    · exact Or.inl hm
    · rw [Rule.startsWith_iff.2 ⟨s.rest, rfl⟩] at hstart
      exact absurd hstart (by simp)
    · exact Or.inr ⟨hm, hstart⟩
  · rintro (hm | ⟨hm, hstart⟩)
    · exact ⟨Or.inl hm, hbefore rule hm⟩
    · exact ⟨Or.inr (Or.inr hm), hstart⟩

theorem mem_added (hs : firstShared? rules = some s) {rule : Rule} :
    rule ∈ (s.rests.map orEpsilon).eraseDups.map (fun rest => Rule.mk name rest) ↔
      ∃ rest, ⟨s.left, s.head :: rest⟩ ∈ rules ∧ rule = ⟨name, orEpsilon rest⟩ := by
  simp only [List.mem_map, List.mem_eraseDups, mem_rests hs]
  constructor
  · rintro ⟨_, ⟨rest, hm, rfl⟩, rfl⟩
    exact ⟨rest, hm, rfl⟩
  · rintro ⟨rest, hm, rfl⟩
    exact ⟨_, ⟨rest, hm, rfl⟩, rfl⟩

/-- After a merge there are the rules of other starts, the merged rule and those of the new name. -/
theorem mem_factor (hs : firstShared? rules = some s) {rule : Rule} :
    rule ∈ s.factor name ↔
      rule ∈ rules ∧ rule.startsWith s.left s.head = false ∨
        rule = ⟨s.left, [s.head, name]⟩ ∨
        ∃ rest, ⟨s.left, s.head :: rest⟩ ∈ rules ∧ rule = ⟨name, orEpsilon rest⟩ := by
  rw [mem_kept hs, ← mem_added hs, factor]
  simp only [List.mem_append, List.mem_cons, or_assoc, or_comm, or_left_comm]

/-- A merge loses no symbol. -/
theorem symbolsOf_subset_factor (hs : firstShared? rules = some s) {symbol : Symbol}
    (h : symbol ∈ symbolsOf rules) : symbol ∈ symbolsOf (s.factor name) := by
  obtain ⟨rule, hr, hsymbol⟩ := mem_symbolsOf.1 h
  by_cases hstart : rule.startsWith s.left s.head = true
  · obtain ⟨rest, rfl⟩ := Rule.startsWith_iff.1 hstart
    have hmerged : ⟨s.left, [s.head, name]⟩ ∈ s.factor name :=
      (mem_factor hs).2 (Or.inr (Or.inl rfl))
    have hrest : ⟨name, orEpsilon rest⟩ ∈ s.factor name :=
      (mem_factor hs).2 (Or.inr (Or.inr ⟨rest, hr, rfl⟩))
    rw [List.mem_cons] at hsymbol
    rcases hsymbol with rfl | rfl | hm
    · exact mem_symbolsOf.2 ⟨_, hmerged, Or.inl rfl⟩
    · exact mem_symbolsOf_of_mem_right hmerged (by simp)
    · exact mem_symbolsOf_of_mem_right hrest (mem_orEpsilon hm)
  · have hkept : rule ∈ s.factor name :=
      (mem_factor hs).2 (Or.inl ⟨hr, by simpa using hstart⟩)
    exact mem_symbolsOf.2 ⟨rule, hkept, hsymbol⟩

/-- A merge makes no left side but the new name. -/
theorem left_of_mem_factor (hs : firstShared? rules = some s) {rule : Rule}
    (h : rule ∈ s.factor name) : rule.left = name ∨ ∃ other ∈ rules, other.left = rule.left := by
  rcases (mem_factor hs).1 h with ⟨hm, -⟩ | rfl | ⟨rest, -, rfl⟩
  · exact Or.inr ⟨rule, hm, rfl⟩
  · exact Or.inr ⟨_, mem_of_firstShared? hs, rfl⟩
  · exact Or.inl rfl

theorem mem_terminalsOf_factor (hs : firstShared? rules = some s) (hfresh : name ∉ symbolsOf rules)
    {t : Symbol} (h : t ∈ terminalsOf rules) : t ∈ terminalsOf (s.factor name) := by
  have ht := mem_symbolsOf_of_mem_terminalsOf h
  refine mem_terminalsOf_of_mem_symbolsOf (symbolsOf_subset_factor hs ht) h.2.1 fun rule hr he => ?_
  rcases left_of_mem_factor hs hr with hname | ⟨other, ho, hleft⟩
  · exact hfresh (hname ▸ he ▸ ht)
  · exact h.2.2 other ho (hleft.trans he)

/-! ## What the symbols stand for -/

/-- The new name stands for the rests, and all other symbols stand for what they did before. -/
def merged (rules : List Rule) (alphabet : Set Symbol) (s : Shared) (name : Symbol) : Valuation :=
  Function.update (wordsOf rules alphabet) name
    (⨆ rest ∈ s.rests, (wordsOf rules alphabet).language rest)

theorem merged_of_ne {symbol : Symbol} (h : symbol ≠ name) :
    merged rules alphabet s name symbol = wordsOf rules alphabet symbol :=
  Function.update_of_ne h ..

theorem mem_merged_name {word : List Symbol} :
    word ∈ merged rules alphabet s name name ↔
      ∃ rest ∈ s.rests, word ∈ (wordsOf rules alphabet).language rest := by
  rw [merged, Function.update_self]
  simp only [Language.mem_iSup, exists_prop]

/-- With the rests for the new name, the rules after the merge hold. -/
theorem models_merged (hs : firstShared? rules = some s) (hfresh : name ∉ symbolsOf rules)
    (hname : name ≠ epsilon) (halphabet : ∀ t ∈ alphabet, t ∈ symbolsOf rules)
    (hε : epsilon ∉ alphabet) :
    (merged rules alphabet s name).Models (s.factor name) alphabet := by
  have hw := models_wordsOf rules alphabet
  have hletter : name ∉ alphabet := fun h => hfresh (halphabet name h)
  have hu : (merged rules alphabet s name).Models rules alphabet :=
    hw.update hfresh hname hletter _
  have hmem := mem_of_firstShared? hs
  have hleft : s.left ≠ name := ne_of_mem_of_not_mem (left_mem_symbolsOf hmem) hfresh
  have hhead : s.head ≠ name :=
    ne_of_mem_of_not_mem (mem_symbolsOf_of_mem_right hmem (by simp)) hfresh
  refine ⟨hu.letter, hu.vanish, fun rule hr hne => ?_⟩
  rcases (mem_factor hs).1 hr with ⟨hm, -⟩ | rfl | ⟨rest, hm, rfl⟩
  · exact hu.rule rule hm hne
  · intro word hword
    simp only [Valuation.language_cons, Valuation.language_nil, mul_one, merged_of_ne hhead]
      at hword
    rw [merged_of_ne hleft]
    obtain ⟨a, ha, b, hb, rfl⟩ := Language.mem_mul.1 hword
    obtain ⟨rest, hrest, hb⟩ := mem_merged_name.1 hb
    exact hw.rule _ ((mem_rests hs).1 hrest) hne (Language.append_mem_mul ha hb)
  · have hrest : name ∉ orEpsilon rest := by
      unfold orEpsilon
      split
      · simpa using hname
      · exact fun h => hfresh (mem_symbolsOf_of_mem_right hm (List.mem_cons_of_mem _ h))
    rw [merged, Valuation.language_update hrest, language_orEpsilon (wordsOf_epsilon hε)]
    exact fun word hword => mem_merged_name.2 ⟨rest, (mem_rests hs).2 hm, hword⟩

/-- The words after the merge meet the rules before it. -/
theorem models_wordsOf_factor (hs : firstShared? rules = some s) (hname : name ≠ epsilon)
    (hε : epsilon ∉ alphabet) : (wordsOf (s.factor name) alphabet).Models rules alphabet := by
  have hw := models_wordsOf (s.factor name) alphabet
  refine ⟨hw.letter, hw.vanish, fun rule hr hne => ?_⟩
  by_cases hstart : rule.startsWith s.left s.head = true
  · obtain ⟨rest, rfl⟩ := Rule.startsWith_iff.1 hstart
    have hrest := hw.rule ⟨name, orEpsilon rest⟩
      ((mem_factor hs).2 (Or.inr (Or.inr ⟨rest, hr, rfl⟩))) hname
    have hmerged := hw.rule ⟨s.left, [s.head, name]⟩
      ((mem_factor hs).2 (Or.inr (Or.inl rfl))) hne
    rw [language_orEpsilon (wordsOf_epsilon hε)] at hrest
    rw [Valuation.language_cons, Valuation.language_cons, Valuation.language_nil,
      mul_one] at hmerged
    rw [Valuation.language_cons]
    exact (mul_le_mul' le_rfl hrest).trans hmerged
  · exact hw.rule rule ((mem_factor hs).2 (Or.inl ⟨hr, by simpa using hstart⟩)) hne

end Shared

section
variable {rules : List Rule} {alphabet : Set Symbol}

/-- A merge changes the words of no symbol but the new one. -/
theorem wordsOf_factor {s : Shared} {name : Symbol} (hs : firstShared? rules = some s)
    (hfresh : name ∉ symbolsOf rules) (hname : name ≠ epsilon)
    (halphabet : ∀ t ∈ alphabet, t ∈ symbolsOf rules) (hε : epsilon ∉ alphabet)
    {symbol : Symbol} (hsymbol : symbol ≠ name) :
    wordsOf (s.factor name) alphabet symbol = wordsOf rules alphabet symbol := by
  refine le_antisymm ?_ (wordsOf_le (Shared.models_wordsOf_factor hs hname hε) symbol)
  have h := wordsOf_le (Shared.models_merged hs hfresh hname halphabet hε) symbol
  rwa [Shared.merged_of_ne hsymbol] at h

/-! ## All merges -/

/-- The name for a merge is put together from two symbols, so it is no symbol of one character. -/
theorem freshName_factor_ne {s : Shared} (hs : firstShared? rules = some s) {symbol : Symbol}
    {c : Char} (hsymbol : symbol.toList = [c]) (hc : c ≠ '\x27') :
    freshName (symbolsOf rules) (s.left ++ s.head) ≠ symbol := by
  refine freshName_ne hsymbol hc fun he => ?_
  have hmem := Shared.mem_of_firstShared? hs
  have happend : s.left.toList ++ s.head.toList = [c] := by
    rw [← String.toList_append, he, hsymbol]
  rw [he]
  rcases List.append_eq_singleton_iff.1 happend with ⟨-, h⟩ | ⟨h, -⟩
  · rw [← show s.head = symbol from String.ext (h.trans hsymbol.symm)]
    exact mem_symbolsOf_of_mem_right hmem (by simp)
  · rw [← show s.left = symbol from String.ext (h.trans hsymbol.symm)]
    exact left_mem_symbolsOf hmem

theorem symbolsOf_subset_leftFactor {symbol : Symbol} (h : symbol ∈ symbolsOf rules) :
    symbol ∈ symbolsOf (leftFactor rules) := by
  fun_induction leftFactor rules with
  | case1 => exact h
  | case2 rules s found _ ih => exact ih (Shared.symbolsOf_subset_factor found h)

/-- Left factoring keeps the terminals. -/
theorem mem_terminalsOf_leftFactor {t : Symbol} (h : t ∈ terminalsOf rules) :
    t ∈ terminalsOf (leftFactor rules) := by
  fun_induction leftFactor rules with
  | case1 => exact h
  | case2 rules s found _ ih =>
    exact ih (Shared.mem_terminalsOf_factor found (freshName_not_mem _ _) h)

/-- Left factoring changes the words of no symbol that was there before. -/
theorem wordsOf_leftFactor (halphabet : ∀ t ∈ alphabet, t ∈ symbolsOf rules)
    (hε : epsilon ∉ alphabet) {symbol : Symbol} (hsymbol : symbol ∈ symbolsOf rules) :
    wordsOf (leftFactor rules) alphabet symbol = wordsOf rules alphabet symbol := by
  fun_induction leftFactor rules with
  | case1 => rfl
  | case2 rules s found _ ih =>
    have hfresh := freshName_not_mem (symbolsOf rules) (s.left ++ s.head)
    rw [ih (fun t ht => Shared.symbolsOf_subset_factor found (halphabet t ht))
      (Shared.symbolsOf_subset_factor found hsymbol)]
    exact wordsOf_factor found hfresh (freshName_factor_ne found rfl (by decide)) halphabet hε
      (ne_of_mem_of_not_mem hsymbol hfresh)

/-- A left side derives the same words over the terminals before and after left factoring. -/
theorem derives_leftFactor_iff (rules : List Rule) {symbol : Symbol}
    (hsymbol : ∃ rule ∈ rules, rule.left = symbol) {word : List Symbol}
    (hword : ∀ t ∈ word, t ∈ terminalsOf rules) :
    Derives rules [symbol] word ↔ Derives (leftFactor rules) [symbol] word := by
  obtain ⟨rule, hr, rfl⟩ := hsymbol
  exact derives_iff_of_wordsOf_eq
    (wordsOf_leftFactor (fun _ => mem_symbolsOf_of_mem_terminalsOf) epsilon_not_mem_terminalsOf
      (left_mem_symbolsOf hr)) hword

end

/-! ## Nested starts -/

/-- Two rules go on sharing after the start that all three share. -/
def nestedStarts : List Rule := [⟨"A", ["a", "b", "c"]⟩, ⟨"A", ["a", "b", "d"]⟩, ⟨"A", ["a"]⟩]

theorem derives_leftFactor_nestedStarts :
    (∀ t ∈ ["a", "b", "d"], t ∈ terminalsOf nestedStarts) ∧
      Derives (leftFactor nestedStarts) ["A"] ["a", "b", "d"] :=
  ⟨by decide, (derives_leftFactor_iff nestedStarts ⟨⟨"A", ["a"]⟩, by decide, rfl⟩ (by decide)).1
    (derives_right (show ⟨"A", ["a", "b", "d"]⟩ ∈ nestedStarts by decide) (by decide))⟩
end FrontEnd
