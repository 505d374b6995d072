import FrontEnd.Proofs.Grammar.Prediction
import FrontEnd.Parse.Step

/-! # Derivation trees

A parse tree is a derivation when its inner nodes follow the rules of a grammar. What is on its
lines and in its values does not matter for that.

* `Tree.IsDerivation`: every nonterminal node has the production of one of its rules below it.
* `Tree.leaves`: the terminals of a tree from left to right, each with its value and line, `ε` left
  out; `Tree.word`: their symbols.
* `Tree.outline`: the tree with all lines and values forgotten.
* `Tree.skeleton`: the same except for terminals; outline and leaves determine it.
* `Tree.IsDerivation.begins_head`, `Grammar.exists_head_mem_select`: FIRST and SELECT foresee how
  the words of derivations start.
-/

namespace FrontEnd
set_option autoImplicit false

namespace Grammar
variable {g : Grammar}

theorem isNonterminal_eq_false_iff {symbol : Symbol} :
    g.isNonterminal symbol = false ↔ ∀ rule ∈ g.rules, rule.left ≠ symbol := by
  simp [isNonterminal]

/-- Where `ε` has no rules, no nonterminal is `ε`. -/
theorem ne_epsilon_of_isNonterminal (hε : g.isNonterminal epsilon = false) {symbol : Symbol}
    (hn : g.isNonterminal symbol = true) : symbol ≠ epsilon := by
  rintro rfl
  rw [hε] at hn
  exact absurd hn (by simp)

theorem isTerminal_iff {symbol : Symbol} :
    g.isTerminal symbol = true ↔ symbol ≠ epsilon ∧ ∀ rule ∈ g.rules, rule.left ≠ symbol := by
  rw [← isNonterminal_eq_false_iff, isTerminal, Bool.and_eq_true, bne_iff_ne,
    Bool.not_eq_true']

end Grammar

theorem Rule.mem_right_of_mem_production {rule : Rule} {symbol : Symbol}
    (h : symbol ∈ rule.production) : symbol ∈ rule.right := by
  unfold production at h
  split at h
  · simp at h
  · exact h

theorem Rule.production_eq_right {rule : Rule} (h : rule.production ≠ []) :
    rule.production = rule.right := by
  unfold production at h ⊢
  split
  · rename_i he
    rw [if_pos he] at h
    exact absurd rfl h
  · rfl

namespace Tree

/-- The tree follows the rules: a symbol without rules is a leaf, and the children of a nonterminal
are the production of one of its rules. -/
inductive IsDerivation (g : Grammar) : Tree → Prop
  | leaf {symbol : Symbol} (line : Nat) (value : Option String)
      (hn : g.isNonterminal symbol = false) : IsDerivation g ⟨symbol, line, value, []⟩
  | node {rule : Rule} (line : Nat) (value : Option String) {children : List Tree}
      (hr : rule ∈ g.rules) (hs : children.map (·.symbol) = rule.production)
      (hc : ∀ child ∈ children, IsDerivation g child) :
      IsDerivation g ⟨rule.left, line, value, children⟩

/-! ## Leaves and outlines -/

mutual

def leaves (g : Grammar) : Tree → List Terminal
  | ⟨symbol, line, value, children⟩ =>
    if g.isTerminal symbol then [⟨symbol, value, line⟩] else forestLeaves g children

def forestLeaves (g : Grammar) : List Tree → List Terminal
  | [] => []
  | tree :: trees => tree.leaves g ++ forestLeaves g trees

end

/-- The terminals that the tree spells. -/
def word (g : Grammar) (tree : Tree) : List Symbol := (tree.leaves g).map (·.symbol)

def forestWord (g : Grammar) (trees : List Tree) : List Symbol :=
  (forestLeaves g trees).map (·.symbol)

mutual

/-- Every line becomes 0, and no node has a value. -/
def outline : Tree → Tree
  | ⟨symbol, _, _, children⟩ => ⟨symbol, 0, none, forestOutline children⟩

def forestOutline : List Tree → List Tree
  | [] => []
  | tree :: trees => tree.outline :: forestOutline trees

end

variable {g : Grammar}

theorem forestLeaves_append (trees others : List Tree) :
    forestLeaves g (trees ++ others) = forestLeaves g trees ++ forestLeaves g others := by
  induction trees with
  | nil => rfl
  | cons tree trees ih => simp only [List.cons_append, forestLeaves, ih, List.append_assoc]

theorem mem_forestLeaves {t : Terminal} {trees : List Tree} :
    t ∈ forestLeaves g trees ↔ ∃ tree ∈ trees, t ∈ tree.leaves g := by
  induction trees with
  | nil => simp [forestLeaves]
  | cons tree trees ih => simp [forestLeaves, ih]

@[simp] theorem forestWord_nil : forestWord g [] = [] := rfl

@[simp] theorem forestWord_cons (tree : Tree) (trees : List Tree) :
    forestWord g (tree :: trees) = tree.word g ++ forestWord g trees := by
  simp only [forestWord, word, forestLeaves, List.map_append]

theorem leaves_terminal {symbol : Symbol} (h : g.isTerminal symbol = true) (line : Nat)
    (value : Option String) (children : List Tree) :
    leaves g ⟨symbol, line, value, children⟩ = [⟨symbol, value, line⟩] := by
  rw [leaves, if_pos h]

theorem leaves_of_not_terminal {symbol : Symbol} (h : g.isTerminal symbol = false) (line : Nat)
    (value : Option String) (children : List Tree) :
    leaves g ⟨symbol, line, value, children⟩ = forestLeaves g children := by
  rw [leaves, if_neg (by simp [h])]

theorem isTerminal_of_isNonterminal {symbol : Symbol} (h : g.isNonterminal symbol = true) :
    g.isTerminal symbol = false := by
  simp [Grammar.isTerminal, h]

theorem isTerminal_epsilon : g.isTerminal epsilon = false := by
  simp [Grammar.isTerminal]

mutual

theorem isTerminal_of_mem_leaves {t : Terminal} :
    ∀ {tree : Tree}, t ∈ tree.leaves g → g.isTerminal t.symbol = true
  | ⟨symbol, line, value, children⟩, h => by
    cases hs : g.isTerminal symbol
    · rw [leaves_of_not_terminal hs] at h
      exact isTerminal_of_mem_forestLeaves h
    · rw [leaves_terminal hs, List.mem_singleton] at h
      rw [h]
      exact hs

theorem isTerminal_of_mem_forestLeaves {t : Terminal} :
    ∀ {trees : List Tree}, t ∈ forestLeaves g trees → g.isTerminal t.symbol = true
  | [], h => by simp [forestLeaves] at h
  | tree :: trees, h => by
    rw [forestLeaves, List.mem_append] at h
    rcases h with h | h
    · exact isTerminal_of_mem_leaves h
    · exact isTerminal_of_mem_forestLeaves h

end

/-- Below the root, leaves are on right sides. -/
theorem IsDerivation.exists_rule_of_mem_leaves {tree : Tree} (h : tree.IsDerivation g)
    {t : Terminal} (ht : t ∈ tree.leaves g) :
    t.symbol = tree.symbol ∨ ∃ rule ∈ g.rules, t.symbol ∈ rule.right := by
  induction h with
  | @leaf symbol line value hn =>
    rw [leaves] at ht
    split at ht
    · rw [List.mem_singleton.1 ht]
      exact Or.inl rfl
    · simp [forestLeaves] at ht
  | @node rule line value children hr hs _ ih =>
    rw [leaves_of_not_terminal (isTerminal_of_isNonterminal (Grammar.isNonterminal_left hr)),
      mem_forestLeaves] at ht
    obtain ⟨child, hm, ht⟩ := ht
    rcases ih child hm ht with he | hrule
    · refine Or.inr ⟨rule, hr, ?_⟩
      have hp : child.symbol ∈ rule.production := hs ▸ List.mem_map_of_mem hm
      rw [he]
      exact Rule.mem_right_of_mem_production hp
    · exact Or.inr hrule

theorem ne_epsilon_of_mem_word {tree : Tree} {t : Symbol} (h : t ∈ tree.word g) :
    t ≠ epsilon := by
  obtain ⟨leaf, hl, rfl⟩ := List.mem_map.1 h
  have ht := isTerminal_of_mem_leaves hl
  intro he
  rw [he, isTerminal_epsilon] at ht
  exact absurd ht (by simp)

mutual

theorem word_outline : ∀ tree : Tree, tree.outline.word g = tree.word g
  | ⟨symbol, line, value, children⟩ => by
    rw [outline, word, word]
    cases hs : g.isTerminal symbol
    · rw [leaves_of_not_terminal hs, leaves_of_not_terminal hs]
      exact forestWord_outline children
    · rw [leaves_terminal hs, leaves_terminal hs]
      rfl

theorem forestWord_outline : ∀ trees : List Tree,
    forestWord g (forestOutline trees) = forestWord g trees
  | [] => rfl
  | tree :: trees => by
    rw [forestOutline, forestWord_cons, forestWord_cons, word_outline tree,
      forestWord_outline trees]

end

mutual

theorem count_outline : ∀ tree : Tree, tree.outline.count = tree.count
  | ⟨symbol, line, value, children⟩ => by
    rw [outline, count, count, forestCount_outline children]

theorem forestCount_outline : ∀ trees : List Tree,
    forestCount (forestOutline trees) = forestCount trees
  | [] => rfl
  | tree :: trees => by
    rw [forestOutline, forestCount, forestCount, count_outline tree, forestCount_outline trees]

end

theorem count_lt_of_mem {tree : Tree} {trees : List Tree} (h : tree ∈ trees) {symbol : Symbol}
    {line : Nat} {value : Option String} : tree.count < count ⟨symbol, line, value, trees⟩ := by
  have hle : tree.count ≤ forestCount trees := by
    induction trees with
    | nil => simp at h
    | cons other trees ih =>
      rw [forestCount]
      rcases List.mem_cons.1 h with rfl | h
      · omega
      · have := ih h
        omega
  rw [count]
  omega

/-! ## Skeletons -/

mutual

/-- Lines and values are forgotten except at terminals. -/
def skeleton (g : Grammar) : Tree → Tree
  | ⟨symbol, line, value, children⟩ =>
    if g.isTerminal symbol then ⟨symbol, line, value, []⟩
    else ⟨symbol, 0, none, forestSkeleton g children⟩

def forestSkeleton (g : Grammar) : List Tree → List Tree
  | [] => []
  | tree :: trees => tree.skeleton g :: forestSkeleton g trees

end

theorem skeleton_terminal {symbol : Symbol} (h : g.isTerminal symbol = true) (line : Nat)
    (value : Option String) (children : List Tree) :
    skeleton g ⟨symbol, line, value, children⟩ = ⟨symbol, line, value, []⟩ := by
  rw [skeleton, if_pos h]

theorem skeleton_of_not_terminal {symbol : Symbol} (h : g.isTerminal symbol = false)
    (line : Nat) (value : Option String) (children : List Tree) :
    skeleton g ⟨symbol, line, value, children⟩ = ⟨symbol, 0, none, forestSkeleton g children⟩ := by
  rw [skeleton, if_neg (by simp [h])]

theorem symbol_skeleton (tree : Tree) : (tree.skeleton g).symbol = tree.symbol := by
  cases tree
  rw [skeleton]
  split <;> rfl

mutual

/-- The outline and the leaves determine the skeleton. -/
theorem skeleton_eq_of_outline_eq : ∀ {tree other : Tree}, tree.outline = other.outline →
    tree.leaves g = other.leaves g → tree.skeleton g = other.skeleton g
  | ⟨symbol, line, value, children⟩, ⟨symbol', line', value', children'⟩, ho, hl => by
    rw [outline, outline, mk.injEq] at ho
    obtain ⟨rfl, -, -, hc⟩ := ho
    cases hs : g.isTerminal symbol
    · rw [leaves_of_not_terminal hs, leaves_of_not_terminal hs] at hl
      rw [skeleton_of_not_terminal hs, skeleton_of_not_terminal hs,
        forestSkeleton_eq_of_forestOutline_eq hc hl]
    · rw [leaves_terminal hs, leaves_terminal hs] at hl
      obtain ⟨rfl, rfl⟩ : value = value' ∧ line = line' := by simpa using hl
      rw [skeleton_terminal hs, skeleton_terminal hs]

theorem forestSkeleton_eq_of_forestOutline_eq : ∀ {trees others : List Tree},
    forestOutline trees = forestOutline others → forestLeaves g trees = forestLeaves g others →
    forestSkeleton g trees = forestSkeleton g others
  | [], [], _, _ => rfl
  | [], _ :: _, ho, _ => by simp [forestOutline] at ho
  | _ :: _, [], ho, _ => by simp [forestOutline] at ho
  | tree :: trees, other :: others, ho, hl => by
    rw [forestOutline, forestOutline, List.cons.injEq] at ho
    obtain ⟨h1, h2⟩ := ho
    have hlength : (tree.leaves g).length = (other.leaves g).length := by
      have hw : tree.word g = other.word g := by rw [← word_outline, h1, word_outline]
      have := congrArg List.length hw
      rwa [word, word, List.length_map, List.length_map] at this
    rw [forestLeaves, forestLeaves] at hl
    obtain ⟨hl1, hl2⟩ := List.append_inj hl hlength
    rw [forestSkeleton, forestSkeleton, skeleton_eq_of_outline_eq h1 hl1,
      forestSkeleton_eq_of_forestOutline_eq h2 hl2]

end

/-! ## How words start -/

namespace IsDerivation

theorem eq_leaf {tree : Tree} (h : tree.IsDerivation g)
    (hn : g.isNonterminal tree.symbol = false) : tree.children = [] := by
  cases h with
  | leaf => rfl
  | node _ _ hr => exact absurd (Grammar.isNonterminal_left hr) (by simpa using hn)

end IsDerivation

/-- The symbol that a word starts with, or `ε` if it is empty. -/
def headOrEpsilon (word : List Symbol) : Symbol := word.headD epsilon

theorem headOrEpsilon_mem_firstOf {first : SetMap} {trees : List Tree}
    (h : ∀ tree ∈ trees, g.Begins first tree.symbol (headOrEpsilon (tree.word g))) :
    headOrEpsilon (forestWord g trees) ∈ g.firstOf first (trees.map (·.symbol)) := by
  induction trees with
  | nil => exact Grammar.mem_firstOf_nil.2 rfl
  | cons tree trees ih =>
    have h1 := h tree (by simp)
    have h2 := ih fun other ho => h other (by simp [ho])
    rw [List.map_cons, forestWord_cons, Grammar.mem_firstOf_cons]
    cases hw : tree.word g with
    | nil =>
      rw [hw] at h1
      exact Or.inr ⟨h1, h2⟩
    | cons t rest =>
      rw [hw] at h1
      have ht : t ∈ tree.word g := by rw [hw]; exact List.mem_cons_self
      exact Or.inl ⟨ne_epsilon_of_mem_word ht, h1⟩

theorem IsDerivation.begins_head (hε : g.isNonterminal epsilon = false) {tree : Tree}
    (h : tree.IsDerivation g) :
    g.Begins g.firstSets tree.symbol (headOrEpsilon (tree.word g)) := by
  induction h with
  | @leaf symbol line value hn =>
    by_cases he : symbol = epsilon
    · subst he
      rw [word, leaves_of_not_terminal isTerminal_epsilon]
      exact Grammar.begins_epsilon.2 rfl
    · have ht : g.isTerminal symbol = true := by simp [Grammar.isTerminal, he, hn]
      rw [word, leaves_terminal ht]
      exact (Grammar.begins_terminal he hn).2 rfl
  | @node rule line value children hr hs _ ih =>
    have hn := Grammar.isNonterminal_left hr
    have hne := Grammar.ne_epsilon_of_isNonterminal hε hn
    have hf := headOrEpsilon_mem_firstOf ih
    rw [hs, Grammar.firstOf_production] at hf
    rw [word, leaves_of_not_terminal (isTerminal_of_isNonterminal hn)]
    exact (Grammar.begins_nonterminal hne hn).2 (Grammar.mem_firstSets_of_mem_firstOf hr hf)

end Tree

/-! ## What comes next -/

namespace Grammar
variable {g : Grammar}

/-- The text `rest` starts with a terminal that may come after `symbol`. -/
def Follows (g : Grammar) (symbol : Symbol) (rest : List Symbol) : Prop :=
  ∃ t, rest.head? = some t ∧ t ∈ (g.followSets g.firstSets).lookup symbol

/-- What the word of a forest and the text behind it start with can come next. -/
theorem exists_head_mem_firstBefore (hε : g.isNonterminal epsilon = false) {left : Symbol}
    {trees : List Tree} (hc : ∀ tree ∈ trees, tree.IsDerivation g) {rest : List Symbol}
    (hf : g.Follows left rest) :
    ∃ t, (Tree.forestWord g trees ++ rest).head? = some t ∧
      t ∈ g.firstBefore g.firstSets ((g.followSets g.firstSets).lookup left)
        (trees.map (·.symbol)) := by
  have hm := Tree.headOrEpsilon_mem_firstOf fun tree h => (hc tree h).begins_head hε
  cases hw : Tree.forestWord g trees with
  | nil =>
    rw [hw] at hm
    obtain ⟨t, ht, hl⟩ := hf
    exact ⟨t, ht, mem_firstBefore.2 (Or.inr ⟨hm, hl⟩)⟩
  | cons t word =>
    rw [hw] at hm
    obtain ⟨leaf, hl, he⟩ := List.mem_map.1 (show t ∈ Tree.forestWord g trees by simp [hw])
    have ht := Tree.isTerminal_of_mem_forestLeaves hl
    refine ⟨t, rfl, mem_firstBefore.2 (Or.inl ⟨?_, hm⟩)⟩
    intro h
    rw [he, h, Tree.isTerminal_epsilon] at ht
    exact absurd ht (by simp)

theorem exists_head_mem_select (hε : g.isNonterminal epsilon = false) {rule : Rule}
    {children : List Tree} (hs : children.map (·.symbol) = rule.production)
    (hc : ∀ child ∈ children, child.IsDerivation g) {rest : List Symbol}
    (hf : g.Follows rule.left rest) :
    ∃ t, (Tree.forestWord g children ++ rest).head? = some t ∧ t ∈ g.select rule := by
  obtain ⟨t, ht, hm⟩ := exists_head_mem_firstBefore hε hc hf
  refine ⟨t, ht, ?_⟩
  rw [hs, mem_firstBefore, firstOf_production, ← mem_firstBefore] at hm
  exact hm

/-- What follows a nonterminal follows its children, together with the words of those behind. -/
theorem follows_child (hε : g.isNonterminal epsilon = false) {rule : Rule} (hr : rule ∈ g.rules)
    {before : List Symbol} {child : Tree} {after : List Tree}
    (hs : before ++ child.symbol :: after.map (·.symbol) = rule.production)
    (hc : ∀ tree ∈ after, tree.IsDerivation g) {rest : List Symbol}
    (hf : g.Follows rule.left rest) (hn : g.isNonterminal child.symbol = true) :
    g.Follows child.symbol (Tree.forestWord g after ++ rest) := by
  obtain ⟨t, ht, hm⟩ := exists_head_mem_firstBefore hε hc hf
  have hp : rule.production = rule.right := by
    unfold Rule.production at hs ⊢
    split
    · rename_i he
      rw [if_pos he] at hs
      simp at hs
    · rfl
  exact ⟨t, ht, mem_followSets hr (hp ▸ hs.symm) hn hm⟩

end Grammar
end FrontEnd
