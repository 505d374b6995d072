import FrontEnd.Proofs.Grammar.Normalization
import FrontEnd.Proofs.Grammar.Text

/-! # How the symbols of the normal form are spelled

The new names of the normal form are put together from symbols and primes. They are words, as the
symbols are, but an arrow may come into them. Then the line of a rule is cut at the wrong place when
it is read.

* `NameClosed`: a property of symbols that new names inherit.
* `Rule.IsSpelled`, `isSpelled_normalized`: the rules of the normal form inherit it.
* `readRules_text_normalized_iff`: when the normal form can be read back.
* `arrow_in_name`: a grammar whose normal form cannot.
-/

namespace FrontEnd
set_option autoImplicit false

/-- A property of `ε`, of the prime, and of what is put together from symbols with the property. -/
structure NameClosed (P : Symbol → Prop) : Prop where
  epsilon : P epsilon
  prime : P "'"
  append : ∀ {a b}, P a → P b → P (a ++ b)

/-- There is something on the right, and all symbols have the property. -/
def Rule.IsSpelled (P : Symbol → Prop) (rule : Rule) : Prop :=
  rule.right ≠ [] ∧ P rule.left ∧ ∀ symbol ∈ rule.right, P symbol

section
variable {P : Symbol → Prop} {rules : List Rule}

/-! ## New names -/

theorem NameClosed.push (hP : NameClosed P) {name : Symbol} (h : P name) :
    P (name.push '\x27') := by
  rw [String.push_eq_append]
  exact hP.append h hP.prime

theorem NameClosed.freshName (hP : NameClosed P) (taken : List Symbol) {name : Symbol}
    (h : P name) : P (freshName taken name) := by
  fun_induction FrontEnd.freshName taken name with
  | case1 name _ ih => exact ih (hP.push h)
  | case2 name _ => exact h

/-! ## Left factoring -/

theorem Shared.isSpelled_factor (hP : NameClosed P) {s : Shared} {name : Symbol}
    (hs : firstShared? rules = some s) (hname : P name) (h : ∀ rule ∈ rules, rule.IsSpelled P) :
    ∀ rule ∈ s.factor name, rule.IsSpelled P := by
  have hshared := h _ (mem_of_firstShared? hs)
  intro rule hr
  rcases (mem_factor hs).1 hr with ⟨hr, -⟩ | rfl | ⟨rest, hrest, rfl⟩
  · exact h rule hr
  · refine ⟨by simp, hshared.2.1, ?_⟩
    simpa using ⟨hshared.2.2 s.head List.mem_cons_self, hname⟩
  · have hsymbols := (h _ hrest).2.2
    unfold orEpsilon
    split
    · exact ⟨by simp, hname, by simpa using hP.epsilon⟩
    · rename_i hne
      refine ⟨by simpa using hne, hname, fun symbol hm => ?_⟩
      exact hsymbols symbol (List.mem_cons_of_mem s.head hm)

theorem isSpelled_leftFactor (hP : NameClosed P) (h : ∀ rule ∈ rules, rule.IsSpelled P) :
    ∀ rule ∈ leftFactor rules, rule.IsSpelled P := by
  fun_induction leftFactor rules with
  | case1 => exact h
  | case2 rules s found _ ih =>
    obtain ⟨-, hleft, hright⟩ := h _ (Shared.mem_of_firstShared? found)
    have hname := hP.append hleft (hright s.head List.mem_cons_self)
    exact ih (Shared.isSpelled_factor hP found (hP.freshName _ hname) h)

/-! ## Removing left recursion -/

theorem isSpelled_rightRecursive (hP : NameClosed P) {tail : Symbol} (htail : P tail)
    (h : ∀ rule ∈ rules, rule.IsSpelled P) :
    ∀ rule ∈ rightRecursive rules tail, rule.IsSpelled P := by
  intro rule hr
  rcases mem_rightRecursive.1 hr with ⟨member, hm, -, rfl⟩ | ⟨member, hm, hd, ht⟩ | rfl
  · obtain ⟨-, hleft, hright⟩ := h member hm
    refine ⟨by simp [Rule.withTail], hleft, List.forall_mem_append.2 ⟨fun symbol hs => ?_, ?_⟩⟩
    · exact hright symbol (List.mem_of_mem_filter hs)
    · simpa using htail
  · obtain ⟨left, right⟩ := member
    obtain ⟨rest, rfl : right = left :: rest⟩ := Rule.isLeftRecursive_iff.1 hd
    obtain ⟨-, rfl⟩ := Rule.toTail?_eq_some_iff.1 ht
    obtain ⟨-, -, hright⟩ := h _ hm
    refine ⟨by simp, htail, List.forall_mem_append.2 ⟨fun symbol hs => ?_, by simpa using htail⟩⟩
    exact hright symbol (List.mem_cons_of_mem left hs)
  · exact ⟨by simp, htail, by simpa using hP.epsilon⟩

theorem isSpelled_removeLeftRecursion (hP : NameClosed P) (h : ∀ rule ∈ rules, rule.IsSpelled P) :
    ∀ rule ∈ removeLeftRecursion rules, rule.IsSpelled P := by
  intro rule hr
  cases isWritten_of_mem hr with
  | copied hr _ => exact h rule hr
  | @replaced first hf _ written hr =>
    have htail : P (tailName rules written first.left) :=
      hP.freshName _ (hP.push (h first hf).2.1)
    exact isSpelled_rightRecursive hP htail
      (fun member hm => h member (List.mem_of_mem_filter hm)) rule hr

theorem isSpelled_normalized (hP : NameClosed P) {g : Grammar}
    (h : ∀ rule ∈ g.rules, rule.IsSpelled P) : ∀ rule ∈ g.normalized.rules, rule.IsSpelled P :=
  isSpelled_removeLeftRecursion hP (isSpelled_leftFactor hP h)

end

/-! ## Words and arrows -/

/-- A word without an arrow in it. -/
def IsPlain (symbol : Symbol) : Prop :=
  Text.IsWord symbol.toList ∧ ¬ Text.arrow <:+: symbol.toList

theorem nameClosed_isWord : NameClosed fun symbol => Text.IsWord symbol.toList where
  epsilon := ⟨by decide, List.forall_mem_singleton.2 (by decide)⟩
  prime := ⟨by decide, List.forall_mem_singleton.2 (by decide)⟩
  append ha hb := by
    rw [String.toList_append]
    exact ha.append hb

theorem IsPlain.append {a b : Symbol} (ha : IsPlain a) (hb : IsPlain b)
    (h : a.toList.getLast? ≠ some '-' ∨ b.toList.head? ≠ some '>') : IsPlain (a ++ b) := by
  rw [IsPlain, String.toList_append]
  exact ⟨ha.1.append hb.1, Text.not_arrow_infix_append ha.2 hb.2 h⟩

theorem nameClosed_head : NameClosed fun symbol =>
    IsPlain symbol ∧ symbol.toList.head? ≠ some '>' where
  epsilon := ⟨⟨nameClosed_isWord.epsilon, by decide⟩, by decide⟩
  prime := ⟨⟨nameClosed_isWord.prime, by decide⟩, by decide⟩
  append {a b} ha hb := by
    refine ⟨ha.1.append hb.1 (Or.inr hb.2), ?_⟩
    rw [String.toList_append, List.head?_append_of_ne_nil _ ha.1.1.1]
    exact ha.2

theorem nameClosed_last : NameClosed fun symbol =>
    IsPlain symbol ∧ symbol.toList.getLast? ≠ some '-' where
  epsilon := ⟨⟨nameClosed_isWord.epsilon, by decide⟩, by decide⟩
  prime := ⟨⟨nameClosed_isWord.prime, by decide⟩, by decide⟩
  append {a b} ha hb := by
    refine ⟨ha.1.append hb.1 (Or.inl ha.2), ?_⟩
    rw [String.toList_append, List.getLast?_append_of_ne_nil _ hb.1.1.1]
    exact hb.2

theorem Rule.IsWritable.isSpelled {rule : Rule} (h : rule.IsWritable) :
    rule.IsSpelled fun symbol => Text.IsWord symbol.toList :=
  ⟨h.right_ne, h.left, h.right⟩

theorem Rule.IsSpelled.isWritable_iff {rule : Rule}
    (h : rule.IsSpelled fun symbol => Text.IsWord symbol.toList) :
    rule.IsWritable ↔ ¬ Text.arrow <:+: rule.left.toList :=
  ⟨fun hw => hw.arrow, fun harrow => ⟨h.2.1, harrow, h.1, h.2.2⟩⟩

/-- If no two symbols make an arrow together, no new name holds one. -/
theorem isPlain_left_of_mem_normalized {g : Grammar} (hg : ∀ rule ∈ g.rules, rule.IsWritable)
    (h : ∀ a ∈ symbolsOf g.rules, ∀ b ∈ symbolsOf g.rules, ¬ Text.arrow <:+: (a ++ b).toList) :
    ∀ rule ∈ g.normalized.rules, IsPlain rule.left := by
  have hplain : ∀ symbol ∈ symbolsOf g.rules, Text.IsWord symbol.toList → IsPlain symbol := by
    intro symbol hm hw
    refine ⟨hw, fun hin => h symbol hm symbol hm ?_⟩
    rw [String.toList_append]
    exact hin.trans (List.prefix_append _ _).isInfix
  have hspelled : ∀ {P : Symbol → Prop}, (∀ symbol ∈ symbolsOf g.rules, P symbol) →
      ∀ rule ∈ g.rules, rule.IsSpelled fun symbol => IsPlain symbol ∧ P symbol := by
    intro P hP rule hr
    have hw := hg rule hr
    have hleft := left_mem_symbolsOf hr
    refine ⟨hw.right_ne, ⟨hplain _ hleft hw.left, hP _ hleft⟩, fun symbol hm => ?_⟩
    have hsymbol := mem_symbolsOf_of_mem_right hr hm
    exact ⟨hplain symbol hsymbol (hw.right symbol hm), hP symbol hsymbol⟩
  intro rule hr
  by_cases hlast : ∃ a ∈ symbolsOf g.rules, a.toList.getLast? = some '-'
  · obtain ⟨a, ha, hdash⟩ := hlast
    refine (isSpelled_normalized nameClosed_head (hspelled fun b hb hhead => ?_) rule hr).2.1.1
    obtain ⟨before, hbefore⟩ := List.getLast?_eq_some_iff.1 hdash
    obtain ⟨after, hafter⟩ := List.head?_eq_some_iff.1 hhead
    refine h a ha b hb ⟨before, after, ?_⟩
    rw [String.toList_append, hbefore, hafter, Text.arrow]
    simp
  · refine (isSpelled_normalized nameClosed_last (hspelled fun a ha hdash => ?_) rule hr).2.1.1
    exact hlast ⟨a, ha, hdash⟩

theorem Grammar.rules_of_ofText {text : String} {g : Grammar} (h : ofText text = .ok g) :
    g.rules = readRules text := by
  unfold ofText ofRules at h
  split at h
  · exact absurd h (by simp)
  · obtain rfl := Except.ok.inj h
    rfl

/-! ## Results -/

/-- The normal form of a grammar that was read can be read back just if no left side in it holds an
arrow. None does if no two symbols of the grammar, put together, hold one. -/
theorem readRules_text_normalized_iff {text : String} {g : Grammar}
    (h : Grammar.ofText text = .ok g) :
    (readRules g.normalized.text = g.normalized.rules ↔
        ∀ rule ∈ g.normalized.rules, ¬ Text.arrow <:+: rule.left.toList) ∧
      ((∀ a ∈ symbolsOf g.rules, ∀ b ∈ symbolsOf g.rules, ¬ Text.arrow <:+: (a ++ b).toList) →
        readRules g.normalized.text = g.normalized.rules) := by
  have hg : ∀ rule ∈ g.rules, rule.IsWritable := by
    rw [Grammar.rules_of_ofText h]
    exact fun _ => isWritable_of_mem_readRules
  have hiff : readRules g.normalized.text = g.normalized.rules ↔
      ∀ rule ∈ g.normalized.rules, ¬ Text.arrow <:+: rule.left.toList := by
    refine readRules_rulesText_eq_iff.trans (forall_congr' fun rule => forall_congr' fun hr => ?_)
    exact (isSpelled_normalized nameClosed_isWord (fun rule hr => (hg rule hr).isSpelled)
      rule hr).isWritable_iff
  refine ⟨hiff, fun hpairs => hiff.2 fun rule hr => ?_⟩
  exact (isPlain_left_of_mem_normalized hg hpairs rule hr).2

/-- `A-` and `>z` make an arrow together, but no name is made of these two. -/
def Grammar.dashed : Grammar where
  rules := [⟨"A-", ["x", "y"]⟩, ⟨"A-", ["x", ">z"]⟩, ⟨"A-", ["A-", "->"]⟩]
  nonempty := by simp

theorem readRules_text_normalized_dashed :
    Grammar.ofText "A- -> x y\nA- -> x >z\nA- -> A- ->" = .ok .dashed ∧
      (∀ rule ∈ Grammar.dashed.normalized.rules, ¬ Text.arrow <:+: rule.left.toList) ∧
      readRules Grammar.dashed.normalized.text = Grammar.dashed.normalized.rules :=
  have h : Grammar.ofText "A- -> x y\nA- -> x >z\nA- -> A- ->" = .ok .dashed := by decide +kernel
  have harrow : ∀ rule ∈ Grammar.dashed.normalized.rules, ¬ Text.arrow <:+: rule.left.toList := by
    decide +kernel
  ⟨h, harrow, (readRules_text_normalized_iff h).1.2 harrow⟩

/-- Two rules that share an arrow. -/
def Grammar.arrows : Grammar where
  rules := [⟨"A", ["->", "b"]⟩, ⟨"A", ["->", "c"]⟩]
  nonempty := by simp

/-- The new name is `A->`, and its rules are read as rules of `A` that start with an arrow. -/
theorem arrow_in_name :
    Grammar.ofText "A -> -> b\nA -> -> c" = .ok .arrows ∧
      Grammar.arrows.normalized.rules = [⟨"A", ["->", "A->"]⟩, ⟨"A->", ["b"]⟩, ⟨"A->", ["c"]⟩] ∧
      readRules Grammar.arrows.normalized.text ≠ Grammar.arrows.normalized.rules := by
  decide +kernel

end FrontEnd
