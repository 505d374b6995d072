/-! # Parse trees

A node carries a grammar symbol, the line at which it was reached, and a value if it is a leaf that
was matched with a token that has one.

* `Tree.size`: the number of nodes, counted off a list of pending trees.
* `Tree.render`: the nodes in preorder, one a line, indented by their depth.
* `Tree.find?`: the node that a path of child positions leads to.
-/

namespace FrontEnd
set_option autoImplicit false

structure Tree where
  symbol : String
  line : Nat
  value : Option String
  children : List Tree

namespace Tree

/-- A node without value and children. -/
def bare (symbol : String) (line : Nat) : Tree := ⟨symbol, line, none, []⟩

def child? (tree : Tree) (index : Nat) : Option Tree := tree.children[index]?

theorem sizeOf_lt_of_mem {tree child : Tree} (h : child ∈ tree.children) :
    sizeOf child < sizeOf tree := by
  cases tree with
  | mk symbol line value children =>
    have := List.sizeOf_lt_of_mem h
    simp only [mk.sizeOf_spec] at this ⊢
    omega

def find? (tree : Tree) : List Nat → Option Tree
  | [] => some tree
  | index :: path =>
    match tree.child? index with
    | some child => child.find? path
    | none => none

/-- The node's own line in a listing, without indentation. -/
def label (tree : Tree) : String :=
  let name := tree.symbol ++ "(" ++ toString tree.line ++ ")"
  match tree.value with
  | some value => name ++ " " ++ value
  | none => name

/-! ## Nodes counted and listed -/

mutual

/-- The number of nodes. -/
def count : Tree → Nat
  | ⟨_, _, _, children⟩ => 1 + forestCount children

def forestCount : List Tree → Nat
  | [] => 0
  | tree :: trees => tree.count + forestCount trees

end

@[simp] theorem forestCount_append (trees others : List Tree) :
    forestCount (trees ++ others) = forestCount trees + forestCount others := by
  induction trees with
  | nil => simp [forestCount]
  | cons tree trees ih => simp [forestCount, ih, Nat.add_assoc]

@[simp] theorem forestCount_reverse (trees : List Tree) :
    forestCount trees.reverse = forestCount trees := by
  induction trees with
  | nil => rfl
  | cons tree trees ih => simp [forestCount, ih, Nat.add_comm]

theorem count_eq (tree : Tree) : tree.count = 1 + forestCount tree.children := by
  cases tree
  rw [count]

/-- Adds the nodes of the pending trees to those counted so far. -/
def countPending (counted : Nat) : List Tree → Nat
  | [] => counted
  | tree :: pending => countPending (counted + 1) (tree.children.reverse ++ pending)
termination_by pending => forestCount pending
decreasing_by
  simp only [List.unattach_reverse, List.unattach_attach, forestCount_append, forestCount_reverse,
    forestCount, count_eq]
  omega

def size (tree : Tree) : Nat := countPending 0 [tree]

/-- The line of a listing that shows the node. -/
def entry (depth : Nat) (tree : Tree) : String := "".pushn ' ' (4 * depth) ++ tree.label

/-- Lists the pending trees, each with its depth, after what is listed already. -/
def listPending (listed : Array String) : List (Tree × Nat) → Array String
  | [] => listed
  | (tree, depth) :: pending =>
    listPending (listed.push (tree.entry depth))
      (tree.children.map (fun child => (child, depth + 1)) ++ pending)
termination_by pending => forestCount (pending.map (·.1))
decreasing_by
  simp only [List.map_append, List.map_map, List.map_cons, Function.comp_def,
    List.attach_map_subtype_val, forestCount_append, forestCount, count_eq tree]
  omega

def render (tree : Tree) : List String := (listPending #[] [(tree, 0)]).toList

end Tree
end FrontEnd
