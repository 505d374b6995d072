import FrontEnd.Proofs.Grammar.Builtin
import FrontEnd.Proofs.Parse.Lines

/-! # The shape of parse trees

Recovery never leaves part of a production: with errors or without, a node has all of a production
below it or nothing.

* `Tree.FollowsRules`: this, for all nodes of a tree.
* `Path.Follows`: each opened node has a part of a production below it, and the focus comes next.
* `PartialTree.follows_fill`, `PartialTree.follows_expand`: both operations keep it.
* `parse_followsRules`: so does a parse, and its root carries the start symbol.
-/

namespace FrontEnd
set_option autoImplicit false

namespace Tree
variable {g : Grammar}

/-- The node is childless or has a production of its symbol below it. -/
def FollowsRule (g : Grammar) (node : Tree) : Prop :=
  node.children = [] ∨ node.children.map (·.symbol) ∈ g.productionsOf node.symbol

def FollowsRules (g : Grammar) (tree : Tree) : Prop := ∀ node ∈ tree.nodes, node.FollowsRule g

theorem mem_nodes_self (tree : Tree) : tree ∈ tree.nodes := by
  rw [nodes_eq]
  exact List.mem_cons_self

theorem mem_forestNodes {node : Tree} {trees : List Tree} :
    node ∈ forestNodes trees ↔ ∃ tree ∈ trees, node ∈ tree.nodes := by
  rw [forestNodes_eq, List.mem_flatMap]

theorem mem_nodes_of_child {tree child node : Tree} (hn : node ∈ child.nodes)
    (hc : child ∈ tree.children) : node ∈ tree.nodes := by
  rw [nodes_eq]
  exact List.mem_cons_of_mem _ (mem_forestNodes.2 ⟨child, hc, hn⟩)

/-- What passes from a tree to its children holds for all its nodes. -/
theorem of_mem_nodes {p : Tree → Prop} (hp : ∀ tree child, p tree → child ∈ tree.children → p child)
    {tree node : Tree} (h : p tree) (hn : node ∈ tree.nodes) : p node := by
  rw [nodes_eq, List.mem_cons] at hn
  rcases hn with rfl | hn
  · exact h
  · obtain ⟨child, hc, hn⟩ := mem_forestNodes.1 hn
    exact of_mem_nodes hp (hp tree child h hc) hn
termination_by sizeOf tree
decreasing_by exact sizeOf_lt_of_mem hc

theorem followsRules_iff {tree : Tree} :
    tree.FollowsRules g ↔ tree.FollowsRule g ∧ ∀ child ∈ tree.children, child.FollowsRules g := by
  unfold FollowsRules
  rw [nodes_eq, List.forall_mem_cons]
  refine and_congr_right fun _ => ?_
  constructor
  · exact fun h child hc node hn => h node (mem_forestNodes.2 ⟨child, hc, hn⟩)
  · intro h node hn
    obtain ⟨child, hc, hn⟩ := mem_forestNodes.1 hn
    exact h child hc node hn

theorem followsRules_leaf (g : Grammar) (symbol : Symbol) (line : Nat) (value : Option String) :
    FollowsRules g ⟨symbol, line, value, []⟩ :=
  followsRules_iff.2 ⟨Or.inl rfl, List.forall_mem_nil _⟩

theorem FollowsRules.child {tree child : Tree} (h : tree.FollowsRules g)
    (hc : child ∈ tree.children) : child.FollowsRules g :=
  (followsRules_iff.1 h).2 child hc

end Tree

/-! ## Trees under construction -/

section
variable {g : Grammar}

/-- The opened nodes lead from the start symbol to `focus`, each with the beginning of a production
below it. -/
inductive Path.Follows (g : Grammar) : Path → Symbol → Prop
  | root : Follows g [] g.start
  | inside {node : OpenNode} {path : Path} {focus : Symbol}
      (hs : node.done.map (·.symbol) ++ focus :: node.waiting ∈ g.productionsOf node.symbol)
      (hd : ∀ tree ∈ node.done, tree.FollowsRules g) (hp : Follows g path node.symbol) :
      Follows g (node :: path) focus

namespace PartialTree

def Follows (g : Grammar) : PartialTree → Prop
  | complete tree => tree.FollowsRules g ∧ tree.symbol = g.start
  | focused path focus => path.Follows g focus

theorem follows_fill {path : Path} {tree : Tree} (ht : tree.FollowsRules g)
    (hp : path.Follows g tree.symbol) : (fill tree path).Follows g := by
  induction path generalizing tree with
  | nil =>
    refine ⟨ht, ?_⟩
    generalize tree.symbol = symbol at hp
    cases hp
    rfl
  | cons node path ih =>
    obtain - | ⟨hs, hd, hp⟩ := hp
    have hdone : ∀ child ∈ node.done ++ [tree], child.FollowsRules g :=
      List.forall_mem_append.2 ⟨hd, List.forall_mem_singleton.2 ht⟩
    unfold fill
    split
    · rename_i hw
      refine ih (Tree.followsRules_iff.2 ⟨Or.inr ?_, hdone⟩) hp
      rw [hw] at hs
      rwa [OpenNode.close, List.map_append]
    · rename_i next waiting hw
      refine .inside ?_ hdone hp
      rw [hw] at hs
      rwa [List.map_append, List.append_assoc]

theorem follows_expand {path : Path} {symbol : Symbol} (hp : path.Follows g symbol)
    (line position : Nat) {production : List Symbol} (h : production ∈ g.productionsOf symbol) :
    (expand path symbol line position production).Follows g := by
  cases production with
  | nil => exact follows_fill (Tree.followsRules_leaf g symbol line none) hp
  | cons first waiting => exact .inside h (List.forall_mem_nil _) hp

/-- What still waits becomes childless nodes, which complete the production. -/
theorem followsRules_assemble {path : Path} {tree : Tree} (ht : tree.FollowsRules g)
    (hp : path.Follows g tree.symbol) :
    (assemble tree path).FollowsRules g ∧ (assemble tree path).symbol = g.start := by
  induction path generalizing tree with
  | nil =>
    refine ⟨ht, ?_⟩
    rw [assemble]
    generalize tree.symbol = symbol at hp
    cases hp
    rfl
  | cons node path ih =>
    obtain - | ⟨hs, hd, hp⟩ := hp
    refine ih (Tree.followsRules_iff.2 ⟨Or.inr ?_, ?_⟩) hp
    · have hbare : (node.waiting.map (Tree.bare · 0)).map (·.symbol) = node.waiting := by
        rw [List.map_map]
        exact List.map_id _
      rwa [OpenNode.close, List.map_append, List.map_cons, hbare]
    · refine List.forall_mem_append.2 ⟨hd, List.forall_mem_cons.2 ⟨ht, fun other ho => ?_⟩⟩
      obtain ⟨symbol, -, rfl⟩ := List.mem_map.1 ho
      exact Tree.followsRules_leaf g symbol 0 none

theorem followsRules_toTree {tree : PartialTree} (h : tree.Follows g) :
    tree.toTree.FollowsRules g ∧ tree.toTree.symbol = g.start := by
  cases tree with
  | complete tree => exact h
  | focused path focus =>
    cases path with
    | nil =>
      cases h
      exact ⟨Tree.followsRules_leaf g _ 1 none, rfl⟩
    | cons node path => exact followsRules_assemble (Tree.followsRules_leaf g focus 0 none) h

end PartialTree
end

/-! ## Parses -/

namespace ParseState
variable {g : PreparedGrammar}

theorem follows_step? (hg : g.table = g.normalized.table) {s t : ParseState}
    (h : s.step? g = some t) (hs : s.tree.Follows g.normalized) : t.tree.Follows g.normalized := by
  obtain ⟨path, focus, next, rest, action, htree, -, hchosen, rfl⟩ := exists_chosen_of_step? h
  rw [htree] at hs
  have hfill : ∀ value,
      (PartialTree.fill ⟨focus, next.line, value, []⟩ path).Follows g.normalized :=
    fun value => PartialTree.follows_fill (Tree.followsRules_leaf _ focus next.line value) hs
  cases hchosen with
  | cut | synch | vanish | replace | accept => exact hfill _
  | skip => exact htree ▸ hs
  | expand hn hc =>
    rw [hg] at hc
    obtain ⟨rule, hi, rfl, -⟩ := Grammar.rule_of_cell? hc
    refine PartialTree.follows_expand hs _ _ ?_
    rw [Grammar.production_of_getElem? hi]
    exact Grammar.production_mem (List.mem_of_getElem? hi)

end ParseState

/-- Whatever the input, each node of the tree has a production of its symbol below it or nothing,
and the root carries the start symbol. -/
theorem parse_followsRules {g : PreparedGrammar} (hg : g.table = g.normalized.table)
    (terminals : List Terminal) :
    (parse g terminals).tree.FollowsRules g.normalized ∧
      (parse g terminals).tree.symbol = g.normalized.start := by
  obtain ⟨n, hruns, -⟩ := ParseState.exists_runs_run (g := g) (.ofTerminals g terminals)
  have hfinal := hruns.preserves (fun s t => ParseState.follows_step? hg) .root
  exact PartialTree.followsRules_toTree hfinal

end FrontEnd
