import FrontEnd.Proofs.Parse.Labels

/-! # The lines of a parse tree

A parse reaches the nodes of its tree in preorder, and a node gets its line when it is reached. What
was never reached has neither a value nor anything below it, and its line means nothing. So a node
has a line of the input wherever it, or something behind it, shows more than a symbol.

* `Tree.Reached`: the first nodes of a preorder stand on lines of a kind, and the others are bare.
* `Tree.Reached.line_of_mem`, `Tree.Reached.line_of_append`: which nodes therefore do.
* `PartialTree.onLines_fill`, `PartialTree.onLines_expand`: what is finished or opened does.
* `parse_onLines`: a parse keeps its tree and its complaints on the lines of the terminals.
-/

namespace FrontEnd
set_option autoImplicit false

/-! ## Preorders -/

namespace Tree

/-- A node that shows only its symbol. -/
def IsBare (tree : Tree) : Prop := tree.value = none ∧ tree.children = []

theorem forestNodes_eq (trees : List Tree) : forestNodes trees = trees.flatMap nodes := by
  induction trees with
  | nil => rfl
  | cons tree trees ih => rw [forestNodes, ih, List.flatMap_cons]

theorem forestNodes_append (trees others : List Tree) :
    forestNodes (trees ++ others) = forestNodes trees ++ forestNodes others := by
  rw [forestNodes_eq, forestNodes_eq, forestNodes_eq, List.flatMap_append]

theorem forestNodes_singleton (tree : Tree) : forestNodes [tree] = tree.nodes := by
  rw [forestNodes, forestNodes, List.append_nil]

theorem isBare_of_mem_nodes_bare {symbol : Symbol} {line : Nat} {node : Tree}
    (h : node ∈ (bare symbol line).nodes) : node.IsBare := by
  rw [nodes_eq, bare, forestNodes, List.mem_singleton] at h
  exact h ▸ ⟨rfl, rfl⟩

/-- The first nodes of a preorder stand on good lines, and the others are bare. -/
inductive Reached (good : Nat → Prop) : List Tree → Prop
  | bare {nodes : List Tree} (h : ∀ node ∈ nodes, node.IsBare) : Reached good nodes
  | cons {node : Tree} {nodes : List Tree} (h : good node.line) (hr : Reached good nodes) :
      Reached good (node :: nodes)

namespace Reached
variable {good : Nat → Prop} {nodes others : List Tree} {node : Tree}

theorem append_left (h : ∀ node ∈ nodes, good node.line) (ho : Reached good others) :
    Reached good (nodes ++ others) := by
  induction nodes with
  | nil => exact ho
  | cons node nodes ih =>
    rw [List.forall_mem_cons] at h
    exact .cons h.1 (ih h.2)

theorem append_right (h : Reached good nodes) (ho : ∀ node ∈ others, node.IsBare) :
    Reached good (nodes ++ others) := by
  induction h with
  | bare h =>
    exact .bare fun node hm => (List.mem_append.1 hm).elim (h node) (ho node)
  | cons h _ ih => exact .cons h ih

theorem tail (h : Reached good (node :: nodes)) : Reached good nodes := by
  cases h with
  | bare h => exact .bare (List.forall_mem_cons.1 h).2
  | cons _ hr => exact hr

theorem right (h : Reached good (nodes ++ others)) : Reached good others := by
  induction nodes with
  | nil => exact h
  | cons node nodes ih => exact ih h.tail

theorem left (h : Reached good (nodes ++ others)) : Reached good nodes := by
  induction nodes with
  | nil => exact .bare (List.forall_mem_nil _)
  | cons node nodes ih =>
    cases h with
    | bare h => exact .bare fun other hm => h other (List.mem_append_left others hm)
    | cons h hr => exact .cons h (ih hr)

theorem line_of_mem (h : Reached good nodes) (hm : node ∈ nodes) (hb : ¬ node.IsBare) :
    good node.line := by
  induction h with
  | bare h => exact absurd (h node hm) hb
  | cons h _ ih =>
    rcases List.mem_cons.1 hm with rfl | hm
    · exact h
    · exact ih hm

/-- What stands before a node that was reached was reached as well. -/
theorem line_of_append (h : Reached good (nodes ++ others)) (hm : node ∈ nodes) {other : Tree}
    (ho : other ∈ others) (hb : ¬ other.IsBare) : good node.line := by
  induction nodes with
  | nil => exact absurd hm List.not_mem_nil
  | cons first nodes ih =>
    cases h with
    | bare h => exact absurd (h other (List.mem_append_right _ ho)) hb
    | cons h hr =>
      rcases List.mem_cons.1 hm with rfl | hm
      · exact h
      · exact ih hr hm

theorem of_mem {trees : List Tree} {tree : Tree} (h : Reached good (forestNodes trees))
    (hm : tree ∈ trees) : Reached good tree.nodes := by
  induction trees with
  | nil => exact absurd hm List.not_mem_nil
  | cons first trees ih =>
    rw [forestNodes] at h
    rcases List.mem_cons.1 hm with rfl | hm
    · exact h.left
    · exact ih h.right hm

theorem children {tree : Tree} (h : Reached good tree.nodes) :
    Reached good (forestNodes tree.children) := by
  rw [nodes_eq] at h
  exact h.tail

theorem child {tree child : Tree} (h : Reached good tree.nodes) (hm : child ∈ tree.children) :
    Reached good child.nodes :=
  h.children.of_mem hm

/-- A node that shows more than its symbol stands on a good line. -/
theorem line {tree : Tree} (h : Reached good tree.nodes) (hb : ¬ tree.IsBare) : good tree.line := by
  rw [nodes_eq] at h
  exact h.line_of_mem List.mem_cons_self hb

end Reached

def OnLines (good : Nat → Prop) (tree : Tree) : Prop := ∀ node ∈ tree.nodes, good node.line

theorem onLines_node {good : Nat → Prop} {symbol : Symbol} {line : Nat} {value : Option String}
    {children : List Tree} (hl : good line) (hc : ∀ node ∈ forestNodes children, good node.line) :
    OnLines good ⟨symbol, line, value, children⟩ := by
  rw [OnLines, nodes]
  exact List.forall_mem_cons.2 ⟨hl, hc⟩

theorem onLines_leaf {good : Nat → Prop} (symbol : Symbol) {line : Nat} (value : Option String)
    (hl : good line) : OnLines good ⟨symbol, line, value, []⟩ :=
  onLines_node hl (List.forall_mem_nil _)

end Tree

/-! ## Trees under construction -/

section
variable {good : Nat → Prop}

structure OpenNode.OnLines (good : Nat → Prop) (node : OpenNode) : Prop where
  line : good node.line
  done : ∀ other ∈ Tree.forestNodes node.done, good other.line

theorem OpenNode.OnLines.append_done {node : OpenNode} (h : node.OnLines good) {tree : Tree}
    (ht : tree.OnLines good) : ∀ other ∈ Tree.forestNodes (node.done ++ [tree]), good other.line := by
  rw [Tree.forestNodes_append, Tree.forestNodes_singleton]
  exact fun other ho => (List.mem_append.1 ho).elim (h.done other) (ht other)

namespace PartialTree

def OnLines (good : Nat → Prop) : PartialTree → Prop
  | complete tree => tree.OnLines good
  | focused path _ => ∀ node ∈ path, node.OnLines good

theorem onLines_fill {path : Path} {tree : Tree} (ht : tree.OnLines good)
    (hp : ∀ node ∈ path, node.OnLines good) : (fill tree path).OnLines good := by
  induction path generalizing tree with
  | nil => exact ht
  | cons node path ih =>
    rw [List.forall_mem_cons] at hp
    have hdone := hp.1.append_done ht
    unfold fill
    split
    · exact ih (Tree.onLines_node hp.1.line hdone) hp.2
    · exact List.forall_mem_cons.2 ⟨⟨hp.1.line, hdone⟩, hp.2⟩

theorem onLines_expand {path : Path} (hp : ∀ node ∈ path, node.OnLines good) (symbol : Symbol)
    {line : Nat} (hl : good line) (position : Nat) (production : List Symbol) :
    (expand path symbol line position production).OnLines good := by
  cases production with
  | nil => exact onLines_fill (Tree.onLines_leaf symbol none hl) hp
  | cons first waiting =>
    exact List.forall_mem_cons.2 ⟨⟨hl, List.forall_mem_nil _⟩, hp⟩

/-- The symbols that still wait are bare nodes at the end. -/
theorem reached_assemble {path : Path} {tree : Tree} (ht : Tree.Reached good tree.nodes)
    (hp : ∀ node ∈ path, node.OnLines good) : Tree.Reached good (assemble tree path).nodes := by
  induction path generalizing tree with
  | nil => exact ht
  | cons node path ih =>
    rw [List.forall_mem_cons] at hp
    refine ih ?_ hp.2
    rw [OpenNode.close, Tree.nodes, Tree.forestNodes_append, Tree.forestNodes]
    refine .cons hp.1.line (.append_left hp.1.done (ht.append_right fun other ho => ?_))
    rw [Tree.forestNodes_eq, List.flatMap_map, List.mem_flatMap] at ho
    obtain ⟨symbol, -, ho⟩ := ho
    exact Tree.isBare_of_mem_nodes_bare ho

theorem reached_toTree {tree : PartialTree} (h : tree.OnLines good) :
    Tree.Reached good tree.toTree.nodes := by
  have hfocus : ∀ focus line, Tree.Reached good (Tree.bare focus line).nodes := fun _ _ =>
    .bare fun _ hm => Tree.isBare_of_mem_nodes_bare hm
  cases tree with
  | complete tree =>
    rw [toTree, ← List.append_nil tree.nodes]
    exact .append_left h (.bare (List.forall_mem_nil _))
  | focused path focus =>
    cases path with
    | nil => exact hfocus focus 1
    | cons node path => exact reached_assemble (hfocus focus 0) h

end PartialTree
end

/-! ## Parses -/

namespace ParseState
variable {g : PreparedGrammar} {good : Nat → Prop}

structure OnLines (good : Nat → Prop) (s : ParseState) : Prop where
  tree : s.tree.OnLines good
  input : ∀ t ∈ s.input, good t.line
  errors : ∀ error ∈ s.errors, good error.line

theorem OnLines.addError {s : ParseState} (h : s.OnLines good) {line : Nat} (hl : good line)
    (fault : SyntaxFault) : (s.addError line fault).OnLines good := by
  refine ⟨h.tree, h.input, fun error he => ?_⟩
  rcases List.mem_append.1 he with he | he
  · exact h.errors error he
  · exact List.mem_singleton.1 he ▸ hl

theorem OnLines.advance {s : ParseState} (h : s.OnLines good) : s.advance.OnLines good :=
  ⟨h.tree, fun t ht => h.input t (List.mem_of_mem_tail ht), h.errors⟩

theorem OnLines.finish {s : ParseState} (h : s.OnLines good) {path : Path}
    (hp : ∀ node ∈ path, node.OnLines good) (focus : Symbol) (value : Option String) {line : Nat}
    (hl : good line) : (s.finish path focus value line).OnLines good :=
  ⟨PartialTree.onLines_fill (Tree.onLines_leaf focus value hl) hp, h.input, h.errors⟩

/-- The end marker stands on the line of a terminal, or on the first one if there is none. -/
theorem onLines_ofTerminals (g : PreparedGrammar) {terminals : List Terminal} (hfirst : good 1)
    (ht : ∀ t ∈ terminals, good t.line) : (ofTerminals g terminals).OnLines good := by
  refine ⟨List.forall_mem_nil _, fun t hm => ?_, List.forall_mem_nil _⟩
  rcases List.mem_append.1 hm with hm | hm
  · exact ht t hm
  · rw [List.mem_singleton.1 hm]
    cases hlast : terminals.getLast? with
    | none => exact hfirst
    | some last => exact ht last (List.mem_of_getLast? hlast)

theorem onLines_step? {s t : ParseState} (h : s.step? g = some t) (hs : s.OnLines good) :
    t.OnLines good := by
  obtain ⟨path, focus, next, rest, action, htree, hinput, hchosen, rfl⟩ :=
    exists_chosen_of_step? h
  have hpath : ∀ node ∈ path, node.OnLines good := by
    have htree' := hs.tree
    rwa [htree] at htree'
  have hnext : good next.line := hs.input next (hinput ▸ List.mem_cons_self)
  -- Whatever is chosen, what is finished, opened or complained about is on the line of `next`.
  have hempty := hs.finish hpath focus none hnext
  cases hchosen with
  | expand => exact ⟨PartialTree.onLines_expand hpath _ hnext _ _, hs.input, hs.errors⟩
  | cut | synch => exact hempty.addError hnext _
  | skip => exact hs.advance.addError hnext _
  | vanish => exact hempty
  | accept => exact (hs.finish hpath focus next.value hnext).advance
  | replace => exact hempty.advance.addError hnext _

theorem line_of_mem_trailing {s : ParseState} (hs : s.OnLines good) {error : SyntaxError}
    (h : error ∈ s.trailing) : good error.line := by
  unfold trailing at h
  split at h
  · rename_i next _ _ _ hinput
    rw [List.mem_singleton.1 h]
    exact hs.input next (hinput ▸ List.mem_cons_self)
  · exact absurd h List.not_mem_nil

end ParseState

/-- Where all terminals and the first line are good, so are the lines of all complaints and of all
nodes that were reached. -/
theorem parse_onLines (g : PreparedGrammar) {good : Nat → Prop} {terminals : List Terminal}
    (hfirst : good 1) (ht : ∀ t ∈ terminals, good t.line) :
    (∀ error ∈ (parse g terminals).errors, good error.line) ∧
      Tree.Reached good (parse g terminals).tree.nodes := by
  obtain ⟨n, hruns, -⟩ := ParseState.exists_runs_run (g := g) (.ofTerminals g terminals)
  have hfinal := hruns.preserves (fun s t h hs => ParseState.onLines_step? h hs)
    (ParseState.onLines_ofTerminals g hfirst ht)
  refine ⟨fun error he => ?_, PartialTree.reached_toTree hfinal.tree⟩
  rcases List.mem_append.1 he with he | he
  · exact hfinal.errors error he
  · exact ParseState.line_of_mem_trailing hfinal he

end FrontEnd
