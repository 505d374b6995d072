import FrontEnd.Proofs.Grammar.Derivation
import Mathlib.Logic.Relation

/-! # Languages

Rules rewrite a text step by step: a left side becomes a right side of its own, and `ε` vanishes.

* `Rewrites`, `Derives`: one step, and any number of steps.
* `Grammar.Generates`: the words that the start symbol derives.
* `Tree.IsDerivation.derives`, `exists_forest_of_derives`: rewriting and derivation trees agree.
* `Grammar.generates_iff`: the words of a grammar are those of its derivation trees.
-/

namespace FrontEnd
set_option autoImplicit false

/-! ## Rewriting -/

/-- One symbol of a text is rewritten. `ε` always stands for the empty text. -/
inductive Rewrites (rules : List Rule) : List Symbol → List Symbol → Prop
  | rule {rule : Rule} (hr : rule ∈ rules) (hε : rule.left ≠ epsilon)
      (before after : List Symbol) :
      Rewrites rules (before ++ rule.left :: after) (before ++ (rule.right ++ after))
  | vanish (before after : List Symbol) :
      Rewrites rules (before ++ epsilon :: after) (before ++ after)

def Derives (rules : List Rule) : List Symbol → List Symbol → Prop :=
  Relation.ReflTransGen (Rewrites rules)

/-- Only symbols that nothing rewrites. -/
def IsWord (rules : List Rule) (word : List Symbol) : Prop :=
  ∀ t ∈ word, t ≠ epsilon ∧ ∀ rule ∈ rules, rule.left ≠ t

instance (rules : List Rule) (word : List Symbol) : Decidable (IsWord rules word) :=
  inferInstanceAs (Decidable (∀ t ∈ word, t ≠ epsilon ∧ ∀ rule ∈ rules, rule.left ≠ t))

variable {rules : List Rule}

theorem Rewrites.around {a b : List Symbol} (h : Rewrites rules a b) (p q : List Symbol) :
    Rewrites rules (p ++ (a ++ q)) (p ++ (b ++ q)) := by
  cases h with
  | @rule rule hr hε before after =>
    have := Rewrites.rule hr hε (p ++ before) (after ++ q)
    simpa only [List.append_assoc, List.cons_append] using this
  | vanish before after =>
    have : Rewrites rules (p ++ before ++ epsilon :: (after ++ q))
        (p ++ before ++ (after ++ q)) := Rewrites.vanish _ _
    simpa only [List.append_assoc, List.cons_append] using this

theorem Derives.refl (a : List Symbol) : Derives rules a a := Relation.ReflTransGen.refl

theorem Derives.trans {a b c : List Symbol} (h : Derives rules a b) (h' : Derives rules b c) :
    Derives rules a c :=
  Relation.ReflTransGen.trans h h'

theorem Rewrites.derives {a b : List Symbol} (h : Rewrites rules a b) : Derives rules a b :=
  Relation.ReflTransGen.single h

theorem Derives.around {a b : List Symbol} (h : Derives rules a b) (p q : List Symbol) :
    Derives rules (p ++ (a ++ q)) (p ++ (b ++ q)) := by
  induction h with
  | refl => exact Derives.refl _
  | tail _ hs ih => exact ih.trans (hs.around p q).derives

theorem Derives.append {a b c d : List Symbol} (h : Derives rules a b)
    (h' : Derives rules c d) : Derives rules (a ++ c) (b ++ d) := by
  have h1 : Derives rules (a ++ c) (b ++ c) := h.around [] c
  have h2 := h'.around b []
  rw [List.append_nil, List.append_nil] at h2
  exact h1.trans h2

/-- A text of nothing but `ε` derives the empty one. -/
theorem derives_nil {text : List Symbol} (h : ∀ symbol ∈ text, symbol = epsilon) :
    Derives rules text [] := by
  induction text with
  | nil => exact Derives.refl _
  | cons symbol text ih =>
    obtain rfl := h symbol (by simp)
    have h1 : Rewrites rules (epsilon :: text) text := Rewrites.vanish [] text
    exact h1.derives.trans (ih fun other ho => h other (by simp [ho]))

theorem derives_right {rule : Rule} (hr : rule ∈ rules) (hε : rule.left ≠ epsilon) :
    Derives rules [rule.left] rule.right := by
  have h := Rewrites.rule hr hε [] []
  rw [List.nil_append, List.nil_append, List.append_nil] at h
  exact h.derives

theorem derives_production {rule : Rule} (hr : rule ∈ rules) (hε : rule.left ≠ epsilon) :
    Derives rules [rule.left] rule.production := by
  unfold Rule.production
  split
  · rename_i he
    refine (derives_right hr hε).trans (derives_nil ?_)
    simpa [Rule.isEpsilon] using he
  · exact derives_right hr hε

/-! ## Words of derivation trees -/

namespace Grammar
variable {g : Grammar}

/-- The start symbol derives the word. -/
def Generates (g : Grammar) (word : List Symbol) : Prop :=
  IsWord g.rules word ∧ Derives g.rules [g.start] word

end Grammar

namespace Tree
variable {g : Grammar}

theorem isWord_word (tree : Tree) : IsWord g.rules (tree.word g) := by
  intro t ht
  obtain ⟨leaf, hl, rfl⟩ := List.mem_map.1 ht
  exact Grammar.isTerminal_iff.1 (isTerminal_of_mem_leaves hl)

theorem derives_forestWord {trees : List Tree}
    (h : ∀ tree ∈ trees, Derives g.rules [tree.symbol] (tree.word g)) :
    Derives g.rules (trees.map (·.symbol)) (forestWord g trees) := by
  induction trees with
  | nil => exact Derives.refl _
  | cons tree trees ih =>
    rw [List.map_cons, forestWord_cons]
    exact (h tree (by simp)).append (ih fun other ho => h other (by simp [ho]))

theorem IsDerivation.derives (hε : g.isNonterminal epsilon = false) {tree : Tree}
    (h : tree.IsDerivation g) : Derives g.rules [tree.symbol] (tree.word g) := by
  induction h with
  | @leaf symbol line value hn =>
    by_cases he : symbol = epsilon
    · subst he
      rw [word, leaves_of_not_terminal isTerminal_epsilon]
      exact derives_nil fun symbol hs => List.mem_singleton.1 hs
    · rw [word, leaves_terminal (by simp [Grammar.isTerminal, he, hn])]
      exact Derives.refl _
  | @node rule line value children hr hs _ ih =>
    have hne := Grammar.isNonterminal_eq_false_iff.1 hε rule hr
    rw [word, leaves_of_not_terminal (isTerminal_of_isNonterminal (Grammar.isNonterminal_left hr))]
    have h := derives_forestWord ih
    rw [hs] at h
    exact (derives_production hr hne).trans h

theorem forestWord_append (trees others : List Tree) :
    forestWord g (trees ++ others) = forestWord g trees ++ forestWord g others := by
  rw [forestWord, forestLeaves_append, List.map_append]
  rfl

/-- The node for a rule above derivations of its right side; those of `ε` are left out if there is
nothing else. -/
theorem exists_node (hε : g.isNonterminal epsilon = false) {rule : Rule} (hr : rule ∈ g.rules)
    {children : List Tree} (hs : children.map (·.symbol) = rule.right)
    (hc : ∀ child ∈ children, child.IsDerivation g) :
    ∃ tree : Tree, tree.IsDerivation g ∧ tree.symbol = rule.left ∧
      tree.word g = forestWord g children := by
  have ht := isTerminal_of_isNonterminal (Grammar.isNonterminal_left hr)
  by_cases he : rule.isEpsilon = true
  · have hp : rule.production = [] := if_pos he
    refine ⟨⟨rule.left, 0, none, []⟩, .node 0 none hr hp.symm (by simp), rfl, ?_⟩
    have hnil : ∀ trees : List Tree, (∀ tree ∈ trees, tree ∈ children) →
        forestWord g trees = [] := by
      intro trees hm
      induction trees with
      | nil => rfl
      | cons tree trees ih =>
        have htree := hm tree (by simp)
        have hsymbol : tree.symbol = epsilon := by
          have hr' : tree.symbol ∈ rule.right := hs ▸ List.mem_map_of_mem htree
          simpa using List.all_eq_true.1 he _ hr'
        obtain ⟨symbol, line, value, below⟩ := tree
        obtain rfl : symbol = epsilon := hsymbol
        obtain rfl : below = [] := (hc _ htree).eq_leaf hε
        rw [forestWord_cons, word, leaves_of_not_terminal isTerminal_epsilon]
        exact ih fun other ho => hm other (by simp [ho])
    rw [word, leaves_of_not_terminal ht, hnil children fun _ h => h]
    rfl
  · have hp : rule.production = rule.right := if_neg he
    refine ⟨⟨rule.left, 0, none, children⟩, .node 0 none hr (hs.trans hp.symm) hc, rfl, ?_⟩
    rw [word, leaves_of_not_terminal ht]
    rfl

/-- A text that derives a word is the row of roots of derivation trees with this word. -/
theorem exists_forest_of_derives (hε : g.isNonterminal epsilon = false)
    {text word : List Symbol} (hd : Derives g.rules text word) (hw : IsWord g.rules word) :
    ∃ trees : List Tree, trees.map (·.symbol) = text ∧
      (∀ tree ∈ trees, tree.IsDerivation g) ∧ forestWord g trees = word := by
  induction hd using Relation.ReflTransGen.head_induction_on with
  | refl =>
    induction word with
    | nil => exact ⟨[], rfl, by simp, rfl⟩
    | cons t word ih =>
      obtain ⟨trees, hs, hc, hf⟩ := ih fun other ho => hw other (by simp [ho])
      have ht := Grammar.isTerminal_iff.2 (hw t (by simp))
      refine ⟨⟨t, 0, none, []⟩ :: trees, by rw [List.map_cons, hs], ?_, ?_⟩
      · intro tree hm
        rcases List.mem_cons.1 hm with rfl | hm
        · exact .leaf 0 none (Grammar.isNonterminal_eq_false_iff.2 (hw t (by simp)).2)
        · exact hc tree hm
      · rw [forestWord_cons, hf, Tree.word, leaves_terminal ht]
        rfl
  | head hs _ ih =>
    obtain ⟨trees, hm, hc, hf⟩ := ih
    cases hs with
    | @rule rule hr _ before after =>
      obtain ⟨left, others, rfl, hl, ho⟩ := List.map_eq_append_iff.1 hm
      obtain ⟨children, right, rfl, hmid, hright⟩ := List.map_eq_append_iff.1 ho
      obtain ⟨tree, ht, hsym, hword⟩ :=
        exists_node hε hr hmid fun child h => hc child (by simp [h])
      refine ⟨left ++ tree :: right, by simp [hl, hsym, hright], ?_, ?_⟩
      · intro other h
        rcases List.mem_append.1 h with h | h
        · exact hc other (by simp [h])
        · rcases List.mem_cons.1 h with rfl | h
          · exact ht
          · exact hc other (by simp [h])
      · rw [← hf, forestWord_append, forestWord_append, forestWord_append, forestWord_cons, hword]
    | vanish before after =>
      obtain ⟨left, right, rfl, hl, hr⟩ := List.map_eq_append_iff.1 hm
      refine ⟨left ++ ⟨epsilon, 0, none, []⟩ :: right, by simp [hl, hr], ?_, ?_⟩
      · intro other h
        rcases List.mem_append.1 h with h | h
        · exact hc other (by simp [h])
        · rcases List.mem_cons.1 h with rfl | h
          · exact .leaf 0 none hε
          · exact hc other (by simp [h])
      · rw [← hf, forestWord_append, forestWord_append, forestWord_cons, Tree.word,
          leaves_of_not_terminal isTerminal_epsilon]
        rfl

end Tree

theorem Grammar.generates_iff {g : Grammar} (hε : g.isNonterminal epsilon = false)
    {word : List Symbol} :
    g.Generates word ↔
      ∃ tree : Tree, tree.IsDerivation g ∧ tree.symbol = g.start ∧ tree.word g = word := by
  constructor
  · rintro ⟨hw, hd⟩
    obtain ⟨trees, hs, hc, hf⟩ := Tree.exists_forest_of_derives hε hd hw
    obtain ⟨tree, others, rfl, hsym, hnil⟩ := List.map_eq_cons_iff.1 hs
    obtain rfl := List.map_eq_nil_iff.1 hnil
    rw [Tree.forestWord_cons, Tree.forestWord_nil, List.append_nil] at hf
    exact ⟨tree, hc tree (by simp), hsym, hf⟩
  · rintro ⟨tree, ht, hsym, rfl⟩
    refine ⟨tree.isWord_word, ?_⟩
    rw [← hsym]
    exact ht.derives hε

end FrontEnd
