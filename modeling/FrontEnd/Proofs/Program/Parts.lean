import FrontEnd.Program.OfTree
import FrontEnd.Proofs.Parse.Shape

/-! # The statements inside a program

Bodies of statements hold further statements. Each of them stands for one node of the parse tree.

* `Statement.parts`, `Statement.allParts`: a statement with all statements inside it.
* `Statement.exists_part`: what is collected over all bodies is found in one of the parts.
* `Statement.OfNode`: what a single node is read as.
* `Statement.exists_node`: in a program that was read off a tree, they were read off its nodes.
* `Guard.exists_node`: so were comparisons.
-/

namespace FrontEnd
set_option autoImplicit false

namespace Statement

mutual

/-- The statement and all statements inside it. -/
def parts : Statement → List Statement
  | declare declaration => [declare declaration]
  | assign assignment => [assign assignment]
  | define definition => [define definition]
  | ifThen guard body => ifThen guard body :: allParts body
  | ifElse guard body otherwise =>
    ifElse guard body otherwise :: (allParts body ++ allParts otherwise)
  | loop guard body step => loop guard body step :: allParts body
  | doWhile body guard => doWhile body guard :: allParts body

def allParts : List Statement → List Statement
  | [] => []
  | statement :: rest => statement.parts ++ allParts rest

end

theorem mem_allParts {part : Statement} {program : List Statement} :
    part ∈ allParts program ↔ ∃ statement ∈ program, part ∈ statement.parts := by
  induction program with
  | nil => simp [allParts]
  | cons statement program ih => simp [allParts, ih]

theorem mem_allParts_append {part : Statement} {program rest : List Statement} :
    part ∈ allParts (program ++ rest) ↔ part ∈ allParts program ∨ part ∈ allParts rest := by
  simp only [mem_allParts, List.mem_append, or_and_right, exists_or]

theorem mem_parts_self (statement : Statement) : statement ∈ statement.parts := by
  cases statement with
  | declare | assign | define | ifThen | ifElse | loop | doWhile =>
    rw [parts]
    exact List.mem_cons_self

/-- The statements that stand directly in the bodies of a statement. -/
def bodies : Statement → List Statement
  | declare _ | assign _ | define _ => []
  | ifThen _ body | loop _ body _ | doWhile body _ => body
  | ifElse _ body otherwise => body ++ otherwise

theorem sizeOf_lt_of_mem_bodies {statement inner : Statement} (h : inner ∈ statement.bodies) :
    sizeOf inner < sizeOf statement := by
  cases statement with
  | declare | assign | define => exact absurd h List.not_mem_nil
  | ifThen guard body | loop guard body step | doWhile body guard =>
    have hlt : sizeOf inner < sizeOf body := List.sizeOf_lt_of_mem h
    simp
    omega
  | ifElse guard body otherwise =>
    have hlt : sizeOf inner < sizeOf body ∨ sizeOf inner < sizeOf otherwise :=
      (List.mem_append.1 h).imp List.sizeOf_lt_of_mem List.sizeOf_lt_of_mem
    simp
    omega

theorem mem_parts_of_mem_bodies {statement inner part : Statement} (h : inner ∈ statement.bodies)
    (hp : part ∈ inner.parts) : part ∈ statement.parts := by
  have hall : part ∈ allParts statement.bodies := mem_allParts.2 ⟨inner, h, hp⟩
  cases statement with
  | declare | assign | define => exact absurd h List.not_mem_nil
  | ifThen | loop | doWhile =>
    rw [parts]
    exact List.mem_cons_of_mem _ hall
  | ifElse =>
    rw [parts, List.mem_cons, List.mem_append]
    exact .inr (mem_allParts_append.1 hall)

/-- What is collected from a statement and its bodies is found in one of its parts. -/
theorem exists_part (own collected : Statement → Prop)
    (h : ∀ statement, collected statement →
      own statement ∨ ∃ inner ∈ statement.bodies, collected inner)
    (statement : Statement) (hc : collected statement) : ∃ part ∈ statement.parts, own part := by
  rcases h statement hc with ho | ⟨inner, hm, hc⟩
  · exact ⟨statement, statement.mem_parts_self, ho⟩
  · obtain ⟨part, hp, ho⟩ := exists_part own collected h inner hc
    exact ⟨part, mem_parts_of_mem_bodies hm hp, ho⟩
termination_by sizeOf statement
decreasing_by exact sizeOf_lt_of_mem_bodies hm

/-! ## Trees -/

/-- What a node can be read as. Declarations and assignments may stand further down, as the
initializer of a `for` statement. -/
inductive OfNode (tree : Tree) : Statement → Prop
  | declare {node : Tree} {declaration : Declaration} (hn : node ∈ tree.nodes)
      (h : Declaration.ofTree? node = some declaration) : OfNode tree (declare declaration)
  | assign {node : Tree} {assignment : Assignment} (hn : node ∈ tree.nodes)
      (h : Assignment.ofTree? node = some assignment) : OfNode tree (assign assignment)
  | define {definition : StructDefinition} (h : StructDefinition.ofTree? tree = some definition) :
      OfNode tree (define definition)
  | ifThen {condition : Tree} (hs : tree.symbol = "IfStatement")
      (hc : tree.child? 2 = some condition) :
      OfNode tree (ifThen (.ofTree condition) (bodyAt tree.children 5))
  | ifElse {condition : Tree} {otherwise : List Statement} (hs : tree.symbol = "IfStatement")
      (hc : tree.child? 2 = some condition) (ho : elseAt? tree.children 7 = some otherwise) :
      OfNode tree (ifElse (.ofTree condition) (bodyAt tree.children 5) otherwise)
  | whileLoop {condition : Tree} (hs : tree.symbol = "WhileStatement")
      (hc : tree.child? 2 = some condition) :
      OfNode tree (loop (.ofTree condition) (bodyAt tree.children 5) none)
  | doWhile (hs : tree.symbol = "DoWhileStatement") :
      OfNode tree (doWhile (bodyAt tree.children 2) ((tree.child? 6).map .ofTree))
  | forLoop {condition : Tree} (hs : tree.symbol = "ForStatement")
      (hc : tree.child? 4 = some condition) :
      OfNode tree (loop (.ofTree condition) (bodyAt tree.children 9)
        ((tree.child? 6).bind Assignment.ofStep?))

theorem ofNode_of_ofVariable? {tree node : Tree} {statement : Statement} (hn : node ∈ tree.nodes)
    (h : ofVariable? node = some statement) : OfNode tree statement := by
  unfold ofVariable? at h
  split at h
  · obtain ⟨declaration, hd, rfl⟩ := Option.map_eq_some_iff.1 h
    exact .declare hn hd
  · split at h
    · obtain ⟨assignment, ha, rfl⟩ := Option.map_eq_some_iff.1 h
      exact .assign hn ha
    · exact absurd h (by simp)

theorem ofNode_of_mem_initialOf {tree : Tree} {statement : Statement}
    (h : statement ∈ initialOf tree) : OfNode tree statement := by
  rw [initialOf, Option.mem_toList] at h
  obtain ⟨node, hv, hs⟩ := Option.bind_eq_some_iff.1 h
  obtain ⟨holder, hholder, hnode⟩ := Option.bind_eq_some_iff.1 hv
  have hm := Tree.mem_nodes_of_child node.mem_nodes_self (List.mem_of_getElem? hnode)
  exact ofNode_of_ofVariable? (Tree.mem_nodes_of_child hm (List.mem_of_getElem? hholder)) hs

theorem ofNode_of_mem_ofTree {tree : Tree} {statement : Statement} (h : statement ∈ ofTree tree) :
    OfNode tree statement := by
  obtain ⟨symbol, line, value, children⟩ := tree
  unfold ofTree at h
  dsimp only at h
  split at h
  · exact ofNode_of_ofVariable? (Tree.mem_nodes_self _) (Option.mem_toList.1 h)
  · obtain ⟨definition, hd, rfl⟩ := Option.map_eq_some_iff.1 (Option.mem_toList.1 h)
    exact .define hd
  -- `if`
  · split at h
    · exact absurd h List.not_mem_nil
    · rename_i condition hc
      split at h
      · rename_i otherwise ho
        obtain rfl := List.mem_singleton.1 h
        exact .ifElse rfl hc ho
      · obtain rfl := List.mem_singleton.1 h
        exact .ifThen rfl hc
  -- `while`
  · split at h
    · exact absurd h List.not_mem_nil
    · rename_i condition hc
      obtain rfl := List.mem_singleton.1 h
      exact .whileLoop rfl hc
  -- `do`
  · obtain rfl := List.mem_singleton.1 h
    exact .doWhile rfl
  -- `for`
  · split at h
    · exact ofNode_of_mem_initialOf h
    · rename_i condition hc
      rcases List.mem_append.1 h with h | h
      · exact ofNode_of_mem_initialOf h
      · obtain rfl := List.mem_singleton.1 h
        exact .forLoop rfl hc
  · exact absurd h List.not_mem_nil

/-- The bodies of the statements that a node is read as stand for children of the node. -/
theorem OfNode.mem_parts {tree : Tree} {statement part : Statement} (h : OfNode tree statement)
    (hp : part ∈ statement.parts) :
    part = statement ∨ (∃ index, part ∈ allParts (bodyAt tree.children index)) ∨
      ∃ index body, elseAt? tree.children index = some body ∧ part ∈ allParts body := by
  cases h with
  | declare | assign | define =>
    rw [parts] at hp
    exact .inl (List.mem_singleton.1 hp)
  | ifThen | whileLoop | doWhile | forLoop =>
    rw [parts, List.mem_cons] at hp
    exact hp.imp_right fun h => .inl ⟨_, h⟩
  | ifElse hs hc ho =>
    rw [parts, List.mem_cons, List.mem_append] at hp
    exact hp.imp_right fun h => h.imp (⟨_, ·⟩) fun h => ⟨_, _, ho, h⟩

/-- The statement was read off a node of one of the trees. -/
def IsReadOff (part : Statement) (trees : List Tree) : Prop :=
  ∃ node ∈ Tree.forestNodes trees, part ∈ ofTree node

section
variable {part : Statement} {tree : Tree} {trees : List Tree}

theorem IsReadOff.cons (h : part.IsReadOff trees) (tree : Tree) :
    part.IsReadOff (tree :: trees) := by
  obtain ⟨node, hn, hp⟩ := h
  obtain ⟨other, ho, hn⟩ := Tree.mem_forestNodes.1 hn
  exact ⟨node, Tree.mem_forestNodes.2 ⟨other, List.mem_cons_of_mem _ ho, hn⟩, hp⟩

theorem isReadOff_cons_of_mem {node : Tree} (hn : node ∈ tree.nodes) (hp : part ∈ ofTree node)
    (trees : List Tree) : part.IsReadOff (tree :: trees) :=
  ⟨node, Tree.mem_forestNodes.2 ⟨tree, List.mem_cons_self, hn⟩, hp⟩

theorem IsReadOff.exists_node (tree : Tree) (h : part.IsReadOff tree.children) :
    ∃ node ∈ tree.nodes, part ∈ ofTree node := by
  obtain ⟨node, hn, hp⟩ := h
  rw [Tree.nodes_eq]
  exact ⟨node, List.mem_cons_of_mem _ hn, hp⟩

mutual

/-- Every statement inside a program was read off a node of the program's tree. -/
theorem exists_node : ∀ tree : Tree, part ∈ allParts (listOfTree tree) →
    ∃ node ∈ tree.nodes, part ∈ ofTree node
  | ⟨symbol, line, value, children⟩, h => by
    rw [listOfTree, mem_allParts_append] at h
    exact IsReadOff.exists_node ⟨symbol, line, value, children⟩
      (h.elim (isReadOff_listOfParts children) (isReadOff_listOfLast children))

theorem isReadOff_listOfParts : ∀ trees : List Tree, part ∈ allParts (listOfParts trees) →
    part.IsReadOff trees
  | [], h => absurd h (by simp [listOfParts, allParts])
  | tree :: rest, h => by
    rw [listOfParts, mem_allParts_append] at h
    rcases h with h | h
    · split at h
      · exact absurd h (by simp [allParts])
      · obtain ⟨node, hn, hp⟩ := exists_node_of_ofTree tree h
        exact isReadOff_cons_of_mem hn hp rest
    · exact (isReadOff_listOfParts rest h).cons tree

theorem isReadOff_listOfLast : ∀ trees : List Tree, part ∈ allParts (listOfLast trees) →
    part.IsReadOff trees
  | [], h => absurd h (by simp [listOfLast, allParts])
  | tree :: rest, h => by
    rw [listOfLast] at h
    split at h
    · obtain ⟨node, hn, hp⟩ := exists_node tree h
      exact isReadOff_cons_of_mem hn hp rest
    · exact (isReadOff_listOfLast rest h).cons tree

theorem exists_node_of_ofTree : ∀ tree : Tree, part ∈ allParts (ofTree tree) →
    ∃ node ∈ tree.nodes, part ∈ ofTree node
  | ⟨symbol, line, value, children⟩, h => by
    obtain ⟨statement, hs, hp⟩ := mem_allParts.1 h
    rcases (ofNode_of_mem_ofTree hs).mem_parts hp with rfl | ⟨index, hb⟩ | ⟨index, body, ho, hb⟩
    · exact ⟨_, Tree.mem_nodes_self _, hs⟩
    · exact IsReadOff.exists_node _ (isReadOff_bodyAt children index hb)
    · exact IsReadOff.exists_node _ (isReadOff_elseAt? children index ho hb)

theorem isReadOff_bodyAt : ∀ (trees : List Tree) (index : Nat),
    part ∈ allParts (bodyAt trees index) → part.IsReadOff trees
  | [], _, h => absurd h (by simp [bodyAt, allParts])
  | tree :: rest, 0, h => by
    rw [bodyAt] at h
    obtain ⟨node, hn, hp⟩ := exists_node tree h
    exact isReadOff_cons_of_mem hn hp rest
  | tree :: rest, index + 1, h => by
    rw [bodyAt] at h
    exact (isReadOff_bodyAt rest index h).cons tree

theorem isReadOff_elseAt? : ∀ (trees : List Tree) (index : Nat) {body : List Statement},
    elseAt? trees index = some body → part ∈ allParts body → part.IsReadOff trees
  | [], _, _, h, _ => absurd h (by simp [elseAt?])
  | ⟨symbol, line, value, children⟩ :: rest, 0, body, h, hp => by
    rw [elseAt?] at h
    split at h
    · exact absurd h (by simp)
    · obtain rfl := Option.some.inj h
      obtain ⟨node, hn, hp⟩ := IsReadOff.exists_node ⟨symbol, line, value, children⟩
        (isReadOff_bodyAt children 2 hp)
      exact isReadOff_cons_of_mem hn hp rest
  | tree :: rest, index + 1, body, h, hp => by
    rw [elseAt?] at h
    exact (isReadOff_elseAt? rest index h hp).cons tree

end

end

end Statement

/-! ## Comparisons -/

/-- A comparison is read off a node with a left side and a tail. -/
theorem Guard.exists_node {tree : Tree} {guard : Guard} (h : comparison? tree = some guard) :
    ∃ node ∈ tree.nodes, ∃ left tail relation right op,
      node.children = [left, tail] ∧ tail.children = [relation, right] ∧
        relation.value = some op ∧
        guard = .compare op relation.line (Expr.ofTree? left) (Expr.ofTree? right) := by
  fun_induction comparison? tree with
  | case1 | case5 | case6 | case8 | case9 => exact absurd h (by simp)
  | case2 symbol line value only _ ih =>
    obtain ⟨node, hn, hnode⟩ := ih h
    exact ⟨node, Tree.mem_nodes_of_child hn List.mem_cons_self, hnode⟩
  | case3 symbol line value left tail _ ih =>
    obtain ⟨node, hn, hnode⟩ := ih h
    exact ⟨node, Tree.mem_nodes_of_child hn List.mem_cons_self, hnode⟩
  | case4 symbol line value left tail relation right hc hs =>
    obtain ⟨op, hv, rfl⟩ := Option.map_eq_some_iff.1 h
    exact ⟨_, Tree.mem_nodes_self _, left, tail, relation, right, op, rfl, hc, hv, rfl⟩
  | case7 symbol line value paren inner _ _ ih =>
    obtain ⟨node, hn, hnode⟩ := ih h
    exact ⟨node, Tree.mem_nodes_of_child hn (by simp), hnode⟩

end FrontEnd
