import FrontEnd.Proofs.Grammar.Builtin
import FrontEnd.Proofs.Program.Meaning

/-! # Expressions of derivations

The trees are derivations of the normalized built-in grammar whose leaves carry what their
categories promise. What such a tree is read as is a reading of its leaves, and nothing but its
skeleton matters for it.

* `Level.symbol`, `Level.tail?`, `Level.group?`: the nonterminals for a level of precedence, and
  their productions.
* `Tree.IsRegular`: the trees in question; `Tree.Both`: what holds of a tree and its skeleton.
* `Tree.ExpressionRead`, `Tree.expressionRead_of_isRegular`: the reading of expressions.
-/

namespace FrontEnd
set_option autoImplicit false

open Grammar (expanded)

namespace Level

def symbol : Level → Symbol
  | disjunction => "Expression"
  | conjunction => "Conjunction"
  | relation => "Relation"
  | sum => "Sum"
  | term => "Term"
  | factor => "Factor"

/-- What comes after the first operand. -/
def tail? : Level → Option Symbol
  | disjunction => some "Expression'"
  | conjunction => some "Conjunction'"
  | relation => some "RelationSum"
  | sum => some "Sum'"
  | term => some "Term'"
  | factor => none

/-- An operator with its operand, where there are several operators. -/
def group? : Level → Option Symbol
  | sum => some "SumSum"
  | term => some "TermTerm"
  | _ => none

/-- The level of what stands before an operator. -/
def before : Level → Level
  | relation => sum
  | level => level

variable {level : Level} {tail group : Symbol}

theorem isNonterminal_symbol : expanded.isNonterminal level.symbol = true := by
  cases level <;> decide

theorem isNonterminal_tail (ht : level.tail? = some tail) :
    expanded.isNonterminal tail = true := by
  cases level <;> cases ht <;> decide

theorem isNonterminal_group (hg : level.group? = some group) :
    expanded.isNonterminal group = true := by
  cases level <;> cases hg <;> decide

theorem productionsOf_symbol (ht : level.tail? = some tail) :
    expanded.productionsOf level.symbol = [[level.tighter.symbol, tail]] := by
  cases level with
  | factor => cases ht
  | _ =>
    obtain rfl := Option.some.inj ht
    rfl

theorem productionsOf_group (hg : level.group? = some group) :
    expanded.productionsOf group =
      level.operators.map fun op => [op.1, level.tighter.symbol] := by
  cases level with
  | sum | term =>
    obtain rfl := Option.some.inj hg
    rfl
  | _ => cases hg

theorem productionsOf_tail_of_group (ht : level.tail? = some tail)
    (hg : level.group? = some group) :
    expanded.productionsOf tail = [[group, tail], []] := by
  cases level with
  | sum | term =>
    obtain rfl := Option.some.inj ht
    obtain rfl := Option.some.inj hg
    rfl
  | _ => cases hg

theorem productionsOf_tail (ht : level.tail? = some tail) (hg : level.group? = none)
    (hr : level ≠ relation) :
    expanded.productionsOf tail =
      (level.operators.map fun op => [op.1, level.tighter.symbol, tail]) ++ [[]] := by
  cases level with
  | disjunction | conjunction =>
    obtain rfl := Option.some.inj ht
    rfl
  | relation => exact absurd rfl hr
  | sum | term => cases hg
  | factor => cases ht

theorem operator_mem {op : Symbol × String} (h : op ∈ level.operators) :
    expanded.isTerminal op.1 = true ∧
      ∀ line value, Tree.operator? ⟨op.1, line, value, []⟩ = some op.2 := by
  have hall : ∀ level : Level, ∀ op ∈ level.operators, expanded.isTerminal op.1 = true := by
    intro level
    cases level <;> decide
  refine ⟨hall level op h, ?_⟩
  cases level <;> simp [operators] at h <;> rcases h with rfl | rfl | rfl <;> intros <;> rfl

end Level

theorem Expr.Reads.of_before {level : Level} {ts : List Terminal} {e : Expr}
    (h : Expr.Reads level.before ts e) : Expr.Reads level ts e := by
  cases level with
  | relation => exact .operand h
  | _ => exact h

theorem Expr.Reads.before_of_tighter {level : Level} {ts : List Terminal} {e : Expr}
    (h : Expr.Reads level.tighter ts e) : Expr.Reads level.before ts e := by
  cases level with
  | relation => exact h
  | _ => exact .operand h

namespace Tree

/-! ## Nodes -/

theorem IsDerivation.exists_terminal {g : Grammar} {tree : Tree} (h : tree.IsDerivation g)
    {symbol : Symbol} (hs : tree.symbol = symbol) (ht : g.isTerminal symbol = true) :
    ∃ line value, tree = ⟨symbol, line, value, []⟩ := by
  obtain ⟨symbol', line, value, children⟩ := tree
  obtain rfl : symbol' = symbol := hs
  have hn : g.isNonterminal symbol' = false :=
    Grammar.isNonterminal_eq_false_iff.2 (Grammar.isTerminal_iff.1 ht).2
  obtain rfl : children = [] := h.eq_leaf hn
  exact ⟨line, value, rfl⟩

theorem IsDerivation.production_mem {g : Grammar} {tree : Tree} (h : tree.IsDerivation g)
    (hn : g.isNonterminal tree.symbol = true) :
    tree.children.map (·.symbol) ∈ g.productionsOf tree.symbol := by
  cases h with
  | leaf _ _ ht => exact absurd hn (by simp [ht])
  | node line value hr hs hc =>
    rw [hs]
    exact Grammar.production_mem hr

theorem IsDerivation.of_children {g : Grammar} {symbol : Symbol} {children : List Tree}
    (hp : children.map (·.symbol) ∈ g.productionsOf symbol)
    (hc : ∀ child ∈ children, child.IsDerivation g) (line : Nat) (value : Option String) :
    IsDerivation g ⟨symbol, line, value, children⟩ := by
  obtain ⟨rule, hr, rfl, hs⟩ := Grammar.exists_rule hp
  exact .node line value hr hs.symm hc

theorem IsDerivation.child {g : Grammar} {tree child : Tree} (h : tree.IsDerivation g)
    (hm : child ∈ tree.children) : child.IsDerivation g := by
  cases h with
  | leaf => simp at hm
  | node _ _ _ _ hc => exact hc child hm

/-- The leaves carry what their categories promise. -/
def IsLexical (tree : Tree) : Prop := ∀ t ∈ tree.leaves expanded, t.IsLexical

theorem isLexical_children {symbol : Symbol} {line : Nat} {value : Option String}
    {children : List Tree} (hn : expanded.isNonterminal symbol = true)
    (h : IsLexical ⟨symbol, line, value, children⟩) : ∀ child ∈ children, child.IsLexical := by
  rw [IsLexical, leaves_of_not_terminal (isTerminal_of_isNonterminal hn)] at h
  exact fun child hm t ht => h t (mem_forestLeaves.2 ⟨child, hm, ht⟩)

/-- A derivation of the built-in grammar whose leaves carry what they should. -/
structure IsRegular (tree : Tree) : Prop where
  derivation : tree.IsDerivation expanded
  lexical : tree.IsLexical

theorem IsRegular.exists_leaf {tree : Tree} (h : tree.IsRegular) {symbol : Symbol}
    (hs : tree.symbol = symbol) (ht : expanded.isTerminal symbol = true) :
    ∃ line value, tree = ⟨symbol, line, value, []⟩ ∧ Terminal.IsLexical ⟨symbol, value, line⟩ := by
  obtain ⟨line, value, rfl⟩ := h.derivation.exists_terminal hs ht
  have hl := h.lexical
  rw [IsLexical, leaves_terminal ht] at hl
  exact ⟨line, value, rfl, hl _ (List.mem_singleton_self _)⟩

theorem IsRegular.child {tree child : Tree} (h : tree.IsRegular)
    (hn : expanded.isNonterminal tree.symbol = true) (hm : child ∈ tree.children) :
    child.IsRegular := by
  cases tree
  exact ⟨h.derivation.child hm, isLexical_children hn h.lexical child hm⟩

/-! ## Expressions -/

/-- The tree and its skeleton have the property. -/
def Both (P : Tree → Prop) (tree : Tree) : Prop := P tree ∧ P (tree.skeleton expanded)

structure ExpressionRead (tree : Tree) : Prop where
  level : ∀ level : Level, tree.symbol = level.symbol →
    ∃ e, Expr.Reads level (tree.leaves expanded) e ∧ tree.Both e.Means
  tail : ∀ level : Level, some tree.symbol = level.tail? →
    ∀ as a, Expr.Reads level.before as a →
      ∃ e, Expr.Reads level (as ++ tree.leaves expanded) e ∧ tree.Both (a.TailMeans e)
  group : ∀ level : Level, some tree.symbol = level.group? →
    ∃ symbol line value operand e op, tree.children = [⟨symbol, line, value, []⟩, operand] ∧
      expanded.isTerminal symbol = true ∧ Tree.operator? ⟨symbol, line, value, []⟩ = some op ∧
      (symbol, op) ∈ level.operators ∧
      tree.leaves expanded = ⟨symbol, value, line⟩ :: operand.leaves expanded ∧
      Expr.Reads level.tighter (operand.leaves expanded) e ∧ operand.Both e.Means

section
variable {symbol : Symbol} (hn : expanded.isNonterminal symbol = true) (line : Nat)
  (value : Option String)
include hn

theorem leaves_node (children : List Tree) :
    leaves expanded ⟨symbol, line, value, children⟩ = forestLeaves expanded children :=
  leaves_of_not_terminal (isTerminal_of_isNonterminal hn) ..

theorem skeleton_node (children : List Tree) :
    skeleton expanded ⟨symbol, line, value, children⟩ =
      ⟨symbol, 0, none, forestSkeleton expanded children⟩ :=
  skeleton_of_not_terminal (isTerminal_of_isNonterminal hn) ..

theorem both_tailMeans_nil (a : Expr) : Both (a.TailMeans a) ⟨symbol, line, value, []⟩ := by
  rw [Both, skeleton_node hn]
  exact ⟨Expr.tailMeans_nil .., Expr.tailMeans_nil ..⟩

theorem both_means_level {a e : Expr} {tree tail : Tree} (ha : tree.Both a.Means)
    (he : tail.Both (a.TailMeans e)) (hl : tree.symbol ≠ "LP") :
    Both e.Means ⟨symbol, line, value, [tree, tail]⟩ := by
  rw [Both, skeleton_node hn, forestSkeleton, forestSkeleton, forestSkeleton]
  exact ⟨Expr.means_level ha.1 he.1 hl .., Expr.means_level ha.2 he.2 (by rwa [symbol_skeleton]) ..⟩

theorem both_means_parens {e : Expr} {left tree right : Tree} (h : tree.Both e.Means)
    (hl : left.symbol = "LP") : Both e.Means ⟨symbol, line, value, [left, tree, right]⟩ := by
  rw [Both, skeleton_node hn, forestSkeleton, forestSkeleton, forestSkeleton, forestSkeleton]
  exact ⟨Expr.means_parens h.1 hl .., Expr.means_parens h.2 (by rwa [symbol_skeleton]) ..⟩

theorem both_means_leaf {e : Expr} {leaf : Symbol} {l : Nat} {v : Option String}
    (ht : expanded.isTerminal leaf = true) (h : Expr.ofLeaf? leaf l v = some e)
    (hl : leaf ≠ "LP") : Both e.Means ⟨symbol, line, value, [⟨leaf, l, v, []⟩]⟩ := by
  rw [Both, skeleton_node hn, forestSkeleton, forestSkeleton, skeleton_terminal ht]
  exact ⟨Expr.means_leaf h hl .., Expr.means_leaf h hl ..⟩

section
variable {a b e : Expr} {leaf : Symbol} {l : Nat} {v : Option String} {op : String}
  {tree tail : Tree} (ht : expanded.isTerminal leaf = true)
include ht

theorem both_tailMeans_join (ho : Tree.operator? ⟨leaf, l, v, []⟩ = some op)
    (hb : tree.Both b.Means) (he : tail.Both (Expr.TailMeans (.binary op l a b) e)) :
    Both (a.TailMeans e) ⟨symbol, line, value, [⟨leaf, l, v, []⟩, tree, tail]⟩ := by
  rw [Both, skeleton_node hn, forestSkeleton, forestSkeleton, forestSkeleton,
    forestSkeleton, skeleton_terminal ht]
  exact ⟨Expr.tailMeans_join ho hb.1 he.1 .., Expr.tailMeans_join ho hb.2 he.2 ..⟩

theorem both_tailMeans_group (ho : Tree.operator? ⟨leaf, l, v, []⟩ = some op)
    (hb : tree.Both b.Means) (he : tail.Both (Expr.TailMeans (.binary op l a b) e)) {group : Tree}
    (hc : group.children = [⟨leaf, l, v, []⟩, tree])
    (hg : group.symbol = "SumSum" ∨ group.symbol = "TermTerm") :
    Both (a.TailMeans e) ⟨symbol, line, value, [group, tail]⟩ := by
  obtain ⟨g, gl, gv, children⟩ := group
  obtain rfl : children = _ := hc
  have hnone : ∀ gl gv tree,
      Tree.operator? ⟨g, gl, gv, [⟨leaf, l, v, []⟩, tree]⟩ = none := by
    intro gl gv tree
    rcases hg with rfl | rfl <;> rfl
  have hs : g ≠ "RELOP" ∧ expanded.isNonterminal g = true := by
    rcases hg with rfl | rfl <;> decide
  rw [Both, skeleton_node hn, forestSkeleton, forestSkeleton, forestSkeleton,
    skeleton_node hs.2, forestSkeleton, forestSkeleton, forestSkeleton, skeleton_terminal ht]
  exact ⟨Expr.tailMeans_group ho hb.1 he.1 (hnone ..) hs.1 ..,
    Expr.tailMeans_group ho hb.2 he.2 (hnone ..) hs.1 ..⟩

end

theorem both_tailMeans_compare {a b : Expr} {tree : Tree} (hb : tree.Both b.Means) (op : String)
    (l : Nat) : Both (a.TailMeans (.binary op l a b))
      ⟨symbol, line, value, [⟨"RELOP", l, some op, []⟩, tree]⟩ := by
  rw [Both, skeleton_node hn, forestSkeleton, forestSkeleton, forestSkeleton,
    skeleton_terminal (by decide)]
  exact ⟨Expr.tailMeans_compare hb.1 .., Expr.tailMeans_compare hb.2 ..⟩

end

/-! ### Readings -/

theorem exists_reads_leaf {symbol : Symbol} {line : Nat} {value : Option String}
    (hs : symbol ∈ ["ID", "INT", "FLOAT"]) (h : Terminal.IsLexical ⟨symbol, value, line⟩) :
    ∃ e, Expr.Reads .factor [⟨symbol, value, line⟩] e ∧
      Expr.ofLeaf? symbol line value = some e := by
  have hcases : symbol = "ID" ∨ symbol = "INT" ∨ symbol = "FLOAT" := by simpa using hs
  rcases hcases with rfl | rfl | rfl
  · obtain ⟨text, hv, -⟩ := h.name rfl
    obtain rfl : value = some text := hv
    exact ⟨.name line text, .name text line, rfl⟩
  · obtain ⟨text, hv, -⟩ := h.literal (.inl rfl)
    obtain rfl : value = some text := hv
    exact ⟨.int text, .int text line, rfl⟩
  · obtain ⟨text, hv, -⟩ := h.literal (.inr rfl)
    obtain rfl : value = some text := hv
    exact ⟨.float text, .float text line, rfl⟩

section
variable {children : List Tree} (hd : ∀ child ∈ children, child.IsRegular)
  (ih : ∀ child ∈ children, child.ExpressionRead) {level : Level} (line : Nat)
  (value : Option String)
include hd ih

theorem exists_reads_factor (hp : children.map (·.symbol) ∈ expanded.productionsOf "Factor") :
    ∃ e, Expr.Reads .factor (leaves expanded ⟨"Factor", line, value, children⟩) e ∧
      Both e.Means ⟨"Factor", line, value, children⟩ := by
  have hn : expanded.isNonterminal "Factor" = true := by decide
  have hcases : (∃ name ∈ ["ID", "INT", "FLOAT"], children.map (·.symbol) = [name]) ∨
      children.map (·.symbol) = ["LP", "Expression", "RP"] := by
    have hps : expanded.productionsOf "Factor" =
      ["ID", "INT", "FLOAT"].map (fun name => [name]) ++ [["LP", "Expression", "RP"]] := rfl
    rw [hps, List.mem_append, List.mem_map, List.mem_singleton] at hp
    exact hp.imp_left fun ⟨name, hm, h⟩ => ⟨name, hm, h.symm⟩
  rw [leaves_node hn]
  rcases hcases with ⟨name, hm, hs⟩ | hs
  · obtain ⟨leaf, _, rfl, rfl, hnil⟩ := List.map_eq_cons_iff.1 hs
    obtain rfl := List.map_eq_nil_iff.1 hnil
    have hleaves : ∀ name ∈ ["ID", "INT", "FLOAT"],
        expanded.isTerminal name = true ∧ name ≠ "LP" := by decide
    obtain ⟨ht, hne⟩ := hleaves _ hm
    obtain ⟨l, v, hleaf, hlex⟩ := (hd leaf (by simp)).exists_leaf rfl ht
    obtain ⟨e, hr, he⟩ := exists_reads_leaf hm hlex
    rw [hleaf]
    refine ⟨e, ?_, both_means_leaf hn line value ht he hne⟩
    rwa [forestLeaves, forestLeaves, leaves_terminal ht]
  · obtain ⟨left, _, rfl, hleft, hs⟩ := List.map_eq_cons_iff.1 hs
    obtain ⟨tree, _, rfl, htree, hs⟩ := List.map_eq_cons_iff.1 hs
    obtain ⟨right, _, rfl, hright, hs⟩ := List.map_eq_cons_iff.1 hs
    obtain rfl := List.map_eq_nil_iff.1 hs
    obtain ⟨e, hr, he⟩ := (ih tree (by simp)).level .disjunction htree
    refine ⟨e, ?_, both_means_parens hn line value he hleft⟩
    obtain ⟨l, v, rfl, -⟩ := (hd left (by simp)).exists_leaf hleft (by decide)
    obtain ⟨l', v', rfl, -⟩ := (hd right (by simp)).exists_leaf hright (by decide)
    simp (disch := decide) only [forestLeaves, leaves_terminal]
    exact .parens rfl rfl hr

theorem exists_reads_level (hp : children.map (·.symbol) ∈ expanded.productionsOf level.symbol) :
    ∃ e, Expr.Reads level (leaves expanded ⟨level.symbol, line, value, children⟩) e ∧
      Both e.Means ⟨level.symbol, line, value, children⟩ := by
  cases ht : level.tail? with
  | none =>
    obtain rfl : level = .factor := by
      cases level <;> first | rfl | cases ht
    exact exists_reads_factor hd ih line value hp
  | some tail =>
    rw [Level.productionsOf_symbol ht, List.mem_singleton] at hp
    obtain ⟨tree, _, rfl, hs, hp⟩ := List.map_eq_cons_iff.1 hp
    obtain ⟨rest, _, rfl, hs', hp⟩ := List.map_eq_cons_iff.1 hp
    obtain rfl := List.map_eq_nil_iff.1 hp
    obtain ⟨a, hr, ha⟩ := (ih tree (by simp)).level level.tighter hs
    obtain ⟨e, hre, he⟩ :=
      (ih rest (by simp)).tail level (by rw [hs', ht]) _ a hr.before_of_tighter
    have hne : level.tighter.symbol ≠ "LP" := by
      cases level <;> decide
    refine ⟨e, ?_, both_means_level level.isNonterminal_symbol line value ha he (hs ▸ hne)⟩
    rw [leaves_node level.isNonterminal_symbol]
    simpa [forestLeaves] using hre

/-- A tail of relations compares once, or not at all. -/
theorem exists_reads_comparison
    (hp : children.map (·.symbol) ∈ expanded.productionsOf "RelationSum") {as : List Terminal}
    {a : Expr} (ha : Expr.Reads .sum as a) :
    ∃ e, Expr.Reads .relation (as ++ leaves expanded ⟨"RelationSum", line, value, children⟩) e ∧
      Both (a.TailMeans e) ⟨"RelationSum", line, value, children⟩ := by
  have hn : expanded.isNonterminal "RelationSum" = true := by decide
  have hcases : children.map (·.symbol) ∈ [["RELOP", "Sum"], []] := hp
  rw [leaves_node hn]
  rcases List.mem_cons.1 hcases with hs | hs
  · obtain ⟨op, _, rfl, hop, hs⟩ := List.map_eq_cons_iff.1 hs
    obtain ⟨tree, _, rfl, htree, hs⟩ := List.map_eq_cons_iff.1 hs
    obtain rfl := List.map_eq_nil_iff.1 hs
    obtain ⟨b, hr, hb⟩ := (ih tree (by simp)).level .sum htree
    obtain ⟨l, v, rfl, hlex⟩ := (hd op (by simp)).exists_leaf hop (by decide)
    obtain ⟨text, hv⟩ := hlex.text (.inr rfl)
    obtain rfl : v = some text := hv
    refine ⟨_, ?_, both_tailMeans_compare hn line value hb text l⟩
    simp (disch := decide) only [forestLeaves, leaves_terminal, List.append_nil,
      List.singleton_append]
    exact .compare ha rfl rfl hr
  · obtain rfl := List.map_eq_nil_iff.1 (List.mem_singleton.1 hs)
    refine ⟨a, ?_, both_tailMeans_nil hn line value a⟩
    simpa [forestLeaves] using (show Expr.Reads Level.relation.before as a from ha).of_before

theorem exists_reads_grouped (hb : level.before = level) {tail group : Symbol}
    (ht : level.tail? = some tail) (hg : level.group? = some group)
    (hs : children.map (·.symbol) = [group, tail]) {as : List Terminal} {a : Expr}
    (ha : Expr.Reads level as a) :
    ∃ e, Expr.Reads level (as ++ leaves expanded ⟨tail, line, value, children⟩) e ∧
      Both (a.TailMeans e) ⟨tail, line, value, children⟩ := by
  have hn := Level.isNonterminal_tail ht
  obtain ⟨node, _, rfl, hnode, hs⟩ := List.map_eq_cons_iff.1 hs
  obtain ⟨rest, _, rfl, hrest, hs⟩ := List.map_eq_cons_iff.1 hs
  obtain rfl := List.map_eq_nil_iff.1 hs
  obtain ⟨symbol, l, v, tree, b, op, hc, hterm, hop, hm, hl, hr, htree⟩ :=
    (ih node (by simp)).group level (by rw [hnode, hg])
  have hjoin : Expr.Reads level.before (as ++ ⟨symbol, v, l⟩ :: tree.leaves expanded)
      (.binary op l a b) := by
    rw [hb]
    exact .join ha hm hr
  obtain ⟨e, hre, he⟩ := (ih rest (by simp)).tail level (by rw [hrest, ht]) _ _ hjoin
  have hgroup : node.symbol = "SumSum" ∨ node.symbol = "TermTerm" := by
    rw [hnode]
    cases level <;> cases hg <;> decide
  refine ⟨e, ?_, both_tailMeans_group hn line value hterm hop htree he hc hgroup⟩
  rw [leaves_node hn]
  simpa [forestLeaves, hl] using hre

theorem exists_reads_joined (hb : level.before = level) {tail : Symbol}
    (ht : level.tail? = some tail) {op : Symbol × String} (hm : op ∈ level.operators)
    (hs : children.map (·.symbol) = [op.1, level.tighter.symbol, tail]) {as : List Terminal}
    {a : Expr} (ha : Expr.Reads level as a) :
    ∃ e, Expr.Reads level (as ++ leaves expanded ⟨tail, line, value, children⟩) e ∧
      Both (a.TailMeans e) ⟨tail, line, value, children⟩ := by
  have hn := Level.isNonterminal_tail ht
  obtain ⟨leaf, _, rfl, hleaf, hs⟩ := List.map_eq_cons_iff.1 hs
  obtain ⟨tree, _, rfl, htree, hs⟩ := List.map_eq_cons_iff.1 hs
  obtain ⟨rest, _, rfl, hrest, hs⟩ := List.map_eq_cons_iff.1 hs
  obtain rfl := List.map_eq_nil_iff.1 hs
  obtain ⟨hterm, hop⟩ := Level.operator_mem hm
  obtain ⟨l, v, rfl, -⟩ := (hd leaf (by simp)).exists_leaf hleaf hterm
  obtain ⟨b, hr, hmean⟩ := (ih tree (by simp)).level level.tighter htree
  have hjoin : Expr.Reads level.before (as ++ ⟨op.1, v, l⟩ :: tree.leaves expanded)
      (.binary op.2 l a b) := by
    rw [hb]
    exact .join ha hm hr
  obtain ⟨e, hre, he⟩ := (ih rest (by simp)).tail level (by rw [hrest, ht]) _ _ hjoin
  refine ⟨e, ?_, both_tailMeans_join hn line value hterm (hop l v) hmean he⟩
  rw [leaves_node hn]
  simpa [forestLeaves, leaves_terminal hterm] using hre

theorem exists_reads_tail {tail : Symbol} (ht : level.tail? = some tail)
    (hp : children.map (·.symbol) ∈ expanded.productionsOf tail) {as : List Terminal} {a : Expr}
    (ha : Expr.Reads level.before as a) :
    ∃ e, Expr.Reads level (as ++ leaves expanded ⟨tail, line, value, children⟩) e ∧
      Both (a.TailMeans e) ⟨tail, line, value, children⟩ := by
  by_cases hrel : level = .relation
  · subst hrel
    obtain rfl := Option.some.inj ht
    exact exists_reads_comparison hd ih line value hp ha
  have hnil : children = [] → ∃ e,
      Expr.Reads level (as ++ leaves expanded ⟨tail, line, value, children⟩) e ∧
        Both (a.TailMeans e) ⟨tail, line, value, children⟩ := by
    rintro rfl
    refine ⟨a, ?_, both_tailMeans_nil (Level.isNonterminal_tail ht) line value a⟩
    rw [leaves_node (Level.isNonterminal_tail ht)]
    simpa [forestLeaves] using ha.of_before
  have hb : level.before = level := by
    cases level <;> first | rfl | exact absurd rfl hrel
  rw [hb] at ha
  cases hg : level.group? with
  | some group =>
    rw [Level.productionsOf_tail_of_group ht hg] at hp
    rcases List.mem_cons.1 hp with hs | hs
    · exact exists_reads_grouped hd ih line value hb ht hg hs ha
    · exact hnil (List.map_eq_nil_iff.1 (List.mem_singleton.1 hs))
  | none =>
    rw [Level.productionsOf_tail ht hg hrel] at hp
    rcases List.mem_append.1 hp with hs | hs
    · obtain ⟨op, hm, hs⟩ := List.mem_map.1 hs
      exact exists_reads_joined hd ih line value hb ht hm hs.symm ha
    · exact hnil (List.map_eq_nil_iff.1 (List.mem_singleton.1 hs))

theorem exists_reads_group {group : Symbol} (hg : level.group? = some group)
    (hp : children.map (·.symbol) ∈ expanded.productionsOf group) :
    ∃ symbol line' value' operand e op, children = [⟨symbol, line', value', []⟩, operand] ∧
      expanded.isTerminal symbol = true ∧ Tree.operator? ⟨symbol, line', value', []⟩ = some op ∧
      (symbol, op) ∈ level.operators ∧
      leaves expanded ⟨group, line, value, children⟩ =
        ⟨symbol, value', line'⟩ :: operand.leaves expanded ∧
      Expr.Reads level.tighter (operand.leaves expanded) e ∧ operand.Both e.Means := by
  rw [Level.productionsOf_group hg] at hp
  obtain ⟨⟨symbol, op⟩, hm, hs⟩ := List.mem_map.1 hp
  obtain ⟨leaf, _, rfl, hleaf, hs⟩ := List.map_eq_cons_iff.1 hs.symm
  obtain ⟨tree, _, rfl, htree, hs⟩ := List.map_eq_cons_iff.1 hs
  obtain rfl := List.map_eq_nil_iff.1 hs
  obtain ⟨hterm, hop⟩ := Level.operator_mem hm
  obtain ⟨l, v, rfl, -⟩ := (hd leaf (by simp)).exists_leaf hleaf hterm
  obtain ⟨b, hr, hb⟩ := (ih tree (by simp)).level level.tighter htree
  refine ⟨symbol, l, v, tree, b, op, rfl, hterm, hop l v, hm, ?_, hr, hb⟩
  rw [leaves_node (Level.isNonterminal_group hg)]
  simp [forestLeaves, leaves_terminal hterm]

end

theorem expressionRead_of_isRegular {tree : Tree} (h : tree.IsRegular) : tree.ExpressionRead := by
  have hd := h.derivation
  induction hd with
  | @leaf symbol line value hn =>
    have hfalse : expanded.isNonterminal symbol = true → False := fun hs => by simp [hs] at hn
    refine ⟨fun level hs => ?_, fun level ht => ?_, fun level hg => ?_⟩
    · obtain rfl : symbol = level.symbol := hs
      exact (hfalse level.isNonterminal_symbol).elim
    · exact (hfalse (Level.isNonterminal_tail ht.symm)).elim
    · exact (hfalse (Level.isNonterminal_group hg.symm)).elim
  | @node rule line value children hr hs hc ih =>
    have hchild : ∀ child ∈ children, child.IsRegular :=
      fun child hm => h.child (Grammar.isNonterminal_left hr) hm
    have hread : ∀ child ∈ children, child.ExpressionRead :=
      fun child hm => ih child hm (hchild child hm)
    have hp := Grammar.production_mem hr
    rw [← hs] at hp
    obtain ⟨left, right⟩ := rule
    refine ⟨fun level hl => ?_, fun level ht as a ha => ?_, fun level hg => ?_⟩
    · obtain rfl : left = level.symbol := hl
      exact exists_reads_level hchild hread line value hp
    · exact exists_reads_tail hchild hread line value ht.symm hp ha
    · exact exists_reads_group hchild hread line value hg.symm hp

end Tree
end FrontEnd
