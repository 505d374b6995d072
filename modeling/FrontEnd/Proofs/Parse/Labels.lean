import FrontEnd.Proofs.Parse.Run

/-! # What the nodes of a parse tree carry

With errors or without, a node carries a symbol of the grammar, and a value only if it was matched
with a terminal of the input; then it has the symbol and the line of this terminal as well.

* `Tree.nodes`: all nodes in preorder, each with what is below it; `Tree.labels`: what they carry.
* `Terminal.IsLabel`: what a node may carry.
* `PartialTree.bears_fill`, `PartialTree.bears_expand`: both operations keep to that.
* `isLabel_of_mem_parse`: so does a parse.
-/

namespace FrontEnd
set_option autoImplicit false

namespace Tree

mutual

/-- The nodes in preorder, each with all that is below it. -/
def nodes : Tree → List Tree
  | ⟨symbol, line, value, children⟩ => ⟨symbol, line, value, children⟩ :: forestNodes children

def forestNodes : List Tree → List Tree
  | [] => []
  | tree :: trees => tree.nodes ++ forestNodes trees

end

theorem nodes_eq (tree : Tree) : tree.nodes = tree :: forestNodes tree.children := by
  cases tree
  rw [nodes]

mutual

/-- The nodes in preorder, each with its symbol, value and line. -/
def labels : Tree → List Terminal
  | ⟨symbol, line, value, children⟩ => ⟨symbol, value, line⟩ :: forestLabels children

def forestLabels : List Tree → List Terminal
  | [] => []
  | tree :: trees => tree.labels ++ forestLabels trees

end

theorem mem_forestLabels {label : Terminal} {trees : List Tree} :
    label ∈ forestLabels trees ↔ ∃ tree ∈ trees, label ∈ tree.labels := by
  induction trees with
  | nil => simp [forestLabels]
  | cons tree trees ih => simp [forestLabels, ih]

end Tree

/-! ## Labels -/

/-- The start symbol and all symbols of right sides. -/
def Grammar.Uses (g : Grammar) (symbol : Symbol) : Prop :=
  symbol = g.start ∨ ∃ rule ∈ g.rules, symbol ∈ rule.right

theorem Grammar.uses_of_mem_production {g : Grammar} {index : Nat} {symbol : Symbol}
    (h : symbol ∈ g.production index) : g.Uses symbol := by
  unfold production at h
  split at h
  · rename_i rule hi
    unfold Rule.production at h
    split at h
    · exact absurd h List.not_mem_nil
    · exact Or.inr ⟨rule, List.mem_of_getElem? hi, h⟩
  · exact absurd h List.not_mem_nil

/-- A node carries a symbol of the grammar and, unless it has no value, is one of the terminals. -/
def Terminal.IsLabel (g : Grammar) (terminals : List Terminal) (label : Terminal) : Prop :=
  g.Uses label.symbol ∧ (label.value = none ∨ label ∈ terminals)

section
variable {g : Grammar} {terminals : List Terminal}

def Tree.Bears (g : Grammar) (terminals : List Terminal) (tree : Tree) : Prop :=
  ∀ label ∈ tree.labels, label.IsLabel g terminals

theorem Tree.bears_node {symbol : Symbol} {line : Nat} {value : Option String}
    {children : List Tree} (hs : Terminal.IsLabel g terminals ⟨symbol, value, line⟩)
    (hc : ∀ child ∈ children, child.Bears g terminals) :
    Tree.Bears g terminals ⟨symbol, line, value, children⟩ := by
  intro label hl
  rw [labels, List.mem_cons, mem_forestLabels] at hl
  rcases hl with rfl | ⟨child, hm, hl⟩
  · exact hs
  · exact hc child hm label hl

theorem Tree.bears_bare {symbol : Symbol} (hs : g.Uses symbol) (line : Nat) :
    (Tree.bare symbol line).Bears g terminals :=
  bears_node ⟨hs, Or.inl rfl⟩ (List.forall_mem_nil _)

/-- The node and all around it, finished or waiting, carry what they may. -/
structure OpenNode.Bears (g : Grammar) (terminals : List Terminal) (node : OpenNode) : Prop where
  symbol : g.Uses node.symbol
  done : ∀ tree ∈ node.done, tree.Bears g terminals
  waiting : ∀ symbol ∈ node.waiting, g.Uses symbol

theorem OpenNode.Bears.close {node : OpenNode} (h : node.Bears g terminals) {trees : List Tree}
    (ht : ∀ tree ∈ trees, tree.Bears g terminals) : (node.close trees).Bears g terminals := by
  refine Tree.bears_node ⟨h.symbol, Or.inl rfl⟩ fun child hc => ?_
  rcases List.mem_append.1 hc with hc | hc
  · exact h.done child hc
  · exact ht child hc

namespace PartialTree

def Bears (g : Grammar) (terminals : List Terminal) : PartialTree → Prop
  | complete tree => tree.Bears g terminals
  | focused path focus => g.Uses focus ∧ ∀ node ∈ path, node.Bears g terminals

theorem bears_fill {path : Path} {tree : Tree} (ht : tree.Bears g terminals)
    (hp : ∀ node ∈ path, node.Bears g terminals) : (fill tree path).Bears g terminals := by
  induction path generalizing tree with
  | nil => exact ht
  | cons node path ih =>
    have hnode := hp node List.mem_cons_self
    have hpath := fun other hm => hp other (List.mem_cons_of_mem node hm)
    unfold fill
    split
    · exact ih (hnode.close (by simpa using ht)) hpath
    · rename_i next waiting hw
      have hwaiting := hnode.waiting
      rw [hw, List.forall_mem_cons] at hwaiting
      refine ⟨hwaiting.1, List.forall_mem_cons.2 ⟨⟨hnode.symbol, ?_, hwaiting.2⟩, hpath⟩⟩
      intro other ho
      rcases List.mem_append.1 ho with ho | ho
      · exact hnode.done other ho
      · exact List.mem_singleton.1 ho ▸ ht

theorem bears_expand {path : Path} {symbol : Symbol} (hs : g.Uses symbol)
    (hp : ∀ node ∈ path, node.Bears g terminals) (line position : Nat) {production : List Symbol}
    (hproduction : ∀ child ∈ production, g.Uses child) :
    (expand path symbol line position production).Bears g terminals := by
  cases production with
  | nil => exact bears_fill (Tree.bears_bare hs line) hp
  | cons first waiting =>
    rw [List.forall_mem_cons] at hproduction
    exact ⟨hproduction.1,
      List.forall_mem_cons.2 ⟨⟨hs, List.forall_mem_nil _, hproduction.2⟩, hp⟩⟩

theorem bears_assemble {path : Path} {tree : Tree} (ht : tree.Bears g terminals)
    (hp : ∀ node ∈ path, node.Bears g terminals) : (assemble tree path).Bears g terminals := by
  induction path generalizing tree with
  | nil => exact ht
  | cons node path ih =>
    rw [List.forall_mem_cons] at hp
    refine ih (hp.1.close (List.forall_mem_cons.2 ⟨ht, fun other ho => ?_⟩)) hp.2
    obtain ⟨symbol, hs, rfl⟩ := List.mem_map.1 ho
    exact Tree.bears_bare (hp.1.waiting symbol hs) 0

theorem bears_toTree {tree : PartialTree} (h : tree.Bears g terminals) :
    tree.toTree.Bears g terminals := by
  cases tree with
  | complete tree => exact h
  | focused path focus =>
    cases path with
    | nil => exact Tree.bears_bare h.1 1
    | cons node path => exact bears_assemble (Tree.bears_bare h.1 0) h.2

end PartialTree
end

/-! ## Parses -/

namespace ParseState
variable {g : PreparedGrammar} {terminals : List Terminal}

/-- The tree carries what it may, and the input is made of the terminals and the end marker. -/
structure Bears (g : PreparedGrammar) (terminals : List Terminal) (s : ParseState) : Prop where
  tree : s.tree.Bears g.normalized terminals
  input : ∀ t ∈ s.input, t.value = none ∨ t ∈ terminals

theorem bears_ofTerminals (g : PreparedGrammar) (terminals : List Terminal) :
    (ofTerminals g terminals).Bears g terminals := by
  refine ⟨⟨Or.inl rfl, List.forall_mem_nil _⟩, fun t ht => ?_⟩
  rcases List.mem_append.1 ht with ht | ht
  · exact Or.inr ht
  · exact Or.inl (by rw [List.mem_singleton.1 ht])

theorem bears_step? {s t : ParseState} (h : s.step? g = some t) (hs : s.Bears g terminals) :
    t.Bears g terminals := by
  obtain ⟨path, focus, next, rest, action, htree, hinput, hchosen, rfl⟩ :=
    exists_chosen_of_step? h
  obtain ⟨tree, input, position, errors⟩ := s
  obtain rfl : tree = .focused path focus := htree
  obtain rfl : input = next :: rest := hinput
  obtain ⟨⟨hfocus, hpath⟩, hi⟩ := hs
  have hrest := (List.forall_mem_cons.1 hi).2
  have hempty : (PartialTree.fill ⟨focus, next.line, none, []⟩ path).Bears g.normalized terminals :=
    PartialTree.bears_fill (Tree.bears_bare hfocus next.line) hpath
  cases hchosen with
  | cut | synch | vanish => exact ⟨hempty, hi⟩
  | skip => exact ⟨⟨hfocus, hpath⟩, hrest⟩
  | replace => exact ⟨hempty, hrest⟩
  | expand =>
    exact ⟨PartialTree.bears_expand hfocus hpath _ _ fun _ => Grammar.uses_of_mem_production, hi⟩
  | accept _ _ hfound =>
    subst hfound
    have hleaf := Tree.bears_node ⟨hfocus, (List.forall_mem_cons.1 hi).1⟩ (List.forall_mem_nil _)
    exact ⟨PartialTree.bears_fill hleaf hpath, hrest⟩

end ParseState

/-- Every node of the tree carries a symbol of the grammar, and one with a value was matched with a
terminal. -/
theorem isLabel_of_mem_parse (g : PreparedGrammar) (terminals : List Terminal) {label : Terminal}
    (h : label ∈ (parse g terminals).tree.labels) : label.IsLabel g.normalized terminals := by
  obtain ⟨n, hruns, -⟩ := ParseState.exists_runs_run (g := g) (.ofTerminals g terminals)
  have hfinal := hruns.preserves (fun s t h hs => ParseState.bears_step? h hs)
    (ParseState.bears_ofTerminals g terminals)
  exact PartialTree.bears_toTree hfinal.tree label h

end FrontEnd
