import FrontEnd.Proofs.Program.Parts

/-! # The lines of a program

The parts of a program keep the lines of the nodes that they were read from. Most of these nodes
show a value or have children, so they were reached. An operator need not show a value, but it is
only kept where an operand behind it was read.

* `Expr.lines`, `Statement.lines`, `Statement.allLines`: the lines in a program.
* `Expr.lines_ofTree?`, `Guard.lines_ofTree`, `Statement.lines_listOfTree`: where the reached nodes
  of a tree stand on good lines, all lines in its program are good.
-/

namespace FrontEnd
set_option autoImplicit false

/-! ## Lines -/

/-- The lines of names and operators; literals have none. -/
def Expr.lines : Expr → List Nat
  | int _ | float _ => []
  | name line _ => [line]
  | binary _ line left right => line :: (left.lines ++ right.lines)

/-- A lost expression has no lines. -/
def Expr.linesOf : Option Expr → List Nat
  | some expression => expression.lines
  | none => []

def Guard.lines : Guard → List Nat
  | compare _ line left right => line :: (Expr.linesOf left ++ Expr.linesOf right)
  | truth value => Expr.linesOf value

def Declaration.lines (declaration : Declaration) : List Nat :=
  declaration.line ::
    (declaration.suffixes.map (·.line) ++ Expr.linesOf declaration.initializer.join)

def Assigned.lines : Assigned → List Nat
  | suffix => []
  | .value expression => Expr.linesOf expression

def Assignment.lines (assignment : Assignment) : List Nat :=
  assignment.line :: assignment.right.lines

def StructDefinition.lines (definition : StructDefinition) : List Nat :=
  definition.line :: definition.fields.map (·.line)

namespace Statement

mutual

def lines : Statement → List Nat
  | declare declaration => declaration.lines
  | assign assignment => assignment.lines
  | define definition => definition.lines
  | ifThen guard body => guard.lines ++ allLines body
  | ifElse guard body otherwise => guard.lines ++ (allLines body ++ allLines otherwise)
  | loop guard body step => guard.lines ++ (allLines body ++ step.toList.flatMap Assignment.lines)
  | doWhile body guard => allLines body ++ guard.toList.flatMap Guard.lines

def allLines : List Statement → List Nat
  | [] => []
  | statement :: rest => statement.lines ++ allLines rest

end

theorem mem_allLines {line : Nat} {program : List Statement} :
    line ∈ allLines program ↔ ∃ statement ∈ program, line ∈ statement.lines := by
  induction program with
  | nil => simp [allLines]
  | cons statement program ih => simp [allLines, ih]

/-- The lines of a statement, but for those in its bodies. -/
def ownLines : Statement → List Nat
  | declare declaration => declaration.lines
  | assign assignment => assignment.lines
  | define definition => definition.lines
  | ifThen guard _ | ifElse guard _ _ => guard.lines
  | loop guard _ step => guard.lines ++ step.toList.flatMap Assignment.lines
  | doWhile _ guard => guard.toList.flatMap Guard.lines

theorem mem_ownLines_or {line : Nat} (statement : Statement) (h : line ∈ statement.lines) :
    line ∈ statement.ownLines ∨ ∃ inner ∈ statement.bodies, line ∈ inner.lines := by
  cases statement with
  | declare | assign | define => exact .inl h
  | ifThen guard body =>
    rw [lines, List.mem_append, mem_allLines] at h
    exact h
  | ifElse guard body otherwise =>
    rw [lines, List.mem_append, List.mem_append, mem_allLines, mem_allLines] at h
    refine h.imp_right fun h => ?_
    simpa only [bodies, List.mem_append, or_and_right, exists_or] using h
  | loop guard body step =>
    rw [lines, List.mem_append, List.mem_append, mem_allLines] at h
    rw [ownLines, List.mem_append, or_assoc]
    exact h.imp_right Or.symm
  | doWhile body guard =>
    rw [lines, List.mem_append, mem_allLines] at h
    exact h.symm

/-- Every line of a program is one of a part's own. -/
theorem exists_ownLines {line : Nat} {program : List Statement} (h : line ∈ allLines program) :
    ∃ part ∈ allParts program, line ∈ part.ownLines := by
  obtain ⟨statement, hs, hl⟩ := mem_allLines.1 h
  obtain ⟨part, hp, ho⟩ := exists_part (line ∈ ownLines ·) (line ∈ lines ·) mem_ownLines_or
    statement hl
  exact ⟨part, mem_allParts.2 ⟨statement, hs, hp⟩, ho⟩

end Statement

/-! ## Nodes that show more than a symbol -/

namespace Tree
variable {tree : Tree} {index : Nat}

theorem not_isBare_of_child? {child : Tree} (h : tree.child? index = some child) :
    ¬ tree.IsBare := by
  rintro ⟨-, hc⟩
  exact absurd (hc ▸ List.mem_of_getElem? h) List.not_mem_nil

theorem not_isBare_of_childValue? {value : String} (h : tree.childValue? index = some value) :
    ¬ tree.IsBare :=
  have ⟨_, hc, _⟩ := Option.bind_eq_some_iff.1 h
  not_isBare_of_child? hc

theorem not_isBare_of_startsWith {symbol : String} (h : tree.startsWith symbol = true) :
    ¬ tree.IsBare := by
  obtain ⟨child, hc, -⟩ := (Option.any_eq_true ..).1 h
  exact not_isBare_of_child? hc

end Tree

section
variable {good : Nat → Prop}

theorem Tree.Reached.of_mem_nodes {tree node : Tree} (h : Tree.Reached good tree.nodes)
    (hn : node ∈ tree.nodes) : Tree.Reached good node.nodes :=
  Tree.of_mem_nodes (p := fun node => Tree.Reached good node.nodes) (fun _ _ h hc => h.child hc)
    h hn

/-! ## Expressions -/

namespace Expr

theorem lines_join {op : String} {line : Nat} {left right : Option Expr}
    (hline : right ≠ none → good line) (hl : ∀ line ∈ linesOf left, good line)
    (hr : ∀ line ∈ linesOf right, good line) :
    ∀ other ∈ linesOf (join op line left right), good other := by
  cases left with
  | none => exact hr
  | some left =>
    cases right with
    | none => exact hl
    | some right =>
      exact List.forall_mem_cons.2 ⟨hline (by simp), List.forall_mem_append.2 ⟨hl, hr⟩⟩

theorem not_isBare_of_ofTree? {tree : Tree} (h : ofTree? tree ≠ none) : ¬ tree.IsBare := by
  rintro ⟨hv, hc⟩
  obtain ⟨symbol, line, value, children⟩ := tree
  obtain rfl : value = none := hv
  obtain rfl : children = [] := hc
  exact h (by simp [ofTree?, ofLeaf?])

theorem exists_not_isBare_of_ofFirst? {trees : List Tree} (h : ofFirst? trees ≠ none) :
    ∃ node ∈ Tree.forestNodes trees, ¬ node.IsBare := by
  cases trees with
  | nil => exact absurd (by rw [ofFirst?]) h
  | cons tree rest =>
    rw [ofFirst?] at h
    refine ⟨tree, ?_, not_isBare_of_ofTree? h⟩
    rw [Tree.forestNodes, Tree.nodes_eq]
    exact List.mem_cons_self

/-- The operator stands before the operand, so it was reached if something of the operand was. -/
theorem lines_operation {op : String} {left : Option Expr} {operator : Tree} {operand : List Tree}
    (h : Tree.Reached good (operator.nodes ++ Tree.forestNodes operand))
    (hl : ∀ line ∈ linesOf left, good line) (hr : ∀ line ∈ linesOf (ofFirst? operand), good line) :
    ∀ line ∈ linesOf (join op operator.line left (ofFirst? operand)), good line := by
  refine lines_join (fun hne => ?_) hl hr
  obtain ⟨node, hm, hb⟩ := exists_not_isBare_of_ofFirst? hne
  refine h.line_of_append ?_ hm hb
  rw [Tree.nodes_eq]
  exact List.mem_cons_self

mutual

theorem lines_ofTree? : ∀ tree : Tree, Tree.Reached good tree.nodes →
    ∀ line ∈ linesOf (ofTree? tree), good line
  | ⟨symbol, line, value, []⟩, h => by
    unfold ofTree? ofLeaf?
    split
    · exact List.forall_mem_nil _
    · exact List.forall_mem_nil _
    · exact List.forall_mem_singleton.2 (h.line fun hb => absurd hb.1 (by simp))
    · exact List.forall_mem_nil _
  | ⟨_, _, _, first :: rest⟩, h => by
    have hchildren := h.children
    rw [Tree.forestNodes] at hchildren
    rw [ofTree?]
    split
    · exact lines_ofFirst? rest hchildren.right
    · exact lines_joinTails rest (lines_ofTree? first hchildren.left) hchildren.right

theorem lines_ofFirst? : ∀ trees : List Tree, Tree.Reached good (Tree.forestNodes trees) →
    ∀ line ∈ linesOf (ofFirst? trees), good line
  | [], _ => by
    rw [ofFirst?]
    exact List.forall_mem_nil _
  | tree :: rest, h => by
    rw [ofFirst?]
    exact lines_ofTree? tree (h.of_mem List.mem_cons_self)

theorem lines_joinTails {left : Option Expr} : ∀ trees : List Tree,
    (∀ line ∈ linesOf left, good line) → Tree.Reached good (Tree.forestNodes trees) →
      ∀ line ∈ linesOf (joinTails left trees), good line
  | [], hl, _ => by
    rw [joinTails]
    exact hl
  | tail :: rest, hl, h => by
    rw [Tree.forestNodes] at h
    rw [joinTails]
    exact lines_joinTails rest (lines_joinTail tail hl h.left) h.right

theorem lines_joinTail {left : Option Expr} : ∀ tree : Tree,
    (∀ line ∈ linesOf left, good line) → Tree.Reached good tree.nodes →
      ∀ line ∈ linesOf (joinTail left tree), good line
  | ⟨_, _, _, []⟩, hl, _ => by
    rw [joinTail]
    exact hl
  | ⟨_, _, _, head :: rest⟩, hl, h => by
    have hchildren := h.children
    rw [Tree.forestNodes] at hchildren
    unfold joinTail
    split
    · exact lines_joinSecond rest
        (lines_operation hchildren hl (lines_ofFirst? rest hchildren.right)) hchildren.right
    -- Without an operator in front, the tail may start with a group that has one.
    · split
      · exact hl
      · rename_i leaf operand _
        have hgroup := hchildren.left.children
        rw [Tree.forestNodes] at hgroup
        split
        · exact lines_joinFirst rest
            (lines_operation hgroup hl (lines_ofFirst? operand hgroup.right)) hchildren.right
        · exact hl

theorem lines_joinFirst {left : Option Expr} : ∀ trees : List Tree,
    (∀ line ∈ linesOf left, good line) → Tree.Reached good (Tree.forestNodes trees) →
      ∀ line ∈ linesOf (joinFirst left trees), good line
  | [], hl, _ => by
    rw [joinFirst]
    exact hl
  | tail :: rest, hl, h => by
    rw [joinFirst]
    exact lines_joinTail tail hl (h.of_mem List.mem_cons_self)

theorem lines_joinSecond {left : Option Expr} : ∀ trees : List Tree,
    (∀ line ∈ linesOf left, good line) → Tree.Reached good (Tree.forestNodes trees) →
      ∀ line ∈ linesOf (joinSecond left trees), good line
  | [], hl, _ => by
    rw [joinSecond]
    exact hl
  | tail :: rest, hl, h => by
    rw [Tree.forestNodes] at h
    rw [joinSecond]
    exact lines_joinFirst rest hl h.right

end

theorem lines_ofChild? {tree : Tree} (h : Tree.Reached good tree.nodes) (index : Nat) :
    ∀ line ∈ linesOf ((tree.child? index).bind ofTree?), good line := by
  cases hc : tree.child? index with
  | none => exact List.forall_mem_nil _
  | some child => exact lines_ofTree? child (h.child (List.mem_of_getElem? hc))

end Expr

namespace Guard

theorem lines_comparison? {tree : Tree} (h : Tree.Reached good tree.nodes) {guard : Guard}
    (hg : comparison? tree = some guard) : ∀ line ∈ guard.lines, good line := by
  obtain ⟨node, hn, left, tail, relation, right, op, hc, htail, hv, rfl⟩ := exists_node hg
  have hnode := h.of_mem_nodes hn
  have htail' : Tree.Reached good tail.nodes := hnode.child (by simp [hc])
  have hbelow := htail'.children
  rw [htail] at hbelow
  refine List.forall_mem_cons.2 ⟨?_, List.forall_mem_append.2
    ⟨Expr.lines_ofTree? left (hnode.child (by simp [hc])),
      Expr.lines_ofTree? right (hbelow.of_mem (by simp))⟩⟩
  exact (hbelow.of_mem List.mem_cons_self).line fun hb => absurd (hb.1.symm.trans hv) (by simp)

theorem lines_ofTree {tree : Tree} (h : Tree.Reached good tree.nodes) :
    ∀ line ∈ (ofTree tree).lines, good line := by
  unfold ofTree
  cases hc : comparison? tree with
  | none => exact Expr.lines_ofTree? tree h
  | some guard => exact lines_comparison? h hc

end Guard

/-! ## Declarations, assignments and structs -/

namespace Declaration

mutual

theorem lines_ofInit : ∀ tree : Tree, Tree.Reached good tree.nodes →
    (∀ suffix ∈ (ofInit tree).1, good suffix.line) ∧
      ∀ line ∈ Expr.linesOf (ofInit tree).2.join, good line
  | ⟨symbol, line, value, children⟩, h => by
    unfold ofInit
    dsimp only
    split
    · rename_i hb
      obtain ⟨hs, hi⟩ := lines_ofInitAt children 3 fun child => h.child
      exact ⟨List.forall_mem_cons.2 ⟨h.line (Tree.not_isBare_of_startsWith hb), hs⟩, hi⟩
    · split
      · refine ⟨List.forall_mem_nil _, ?_⟩
        cases hc : Tree.child? ⟨symbol, line, value, children⟩ 1 with
        | none => exact List.forall_mem_nil _
        | some child => exact Expr.lines_ofTree? child (h.child (List.mem_of_getElem? hc))
      · exact ⟨List.forall_mem_nil _, List.forall_mem_nil _⟩

theorem lines_ofInitAt : ∀ (trees : List Tree) (index : Nat),
    (∀ tree ∈ trees, Tree.Reached good tree.nodes) →
      (∀ suffix ∈ (ofInitAt trees index).1, good suffix.line) ∧
        ∀ line ∈ Expr.linesOf (ofInitAt trees index).2.join, good line
  | [], _, _ => by
    rw [ofInitAt]
    exact ⟨List.forall_mem_nil _, List.forall_mem_nil _⟩
  | tree :: _, 0, h => by
    rw [ofInitAt]
    exact lines_ofInit tree (h tree List.mem_cons_self)
  | tree :: rest, index + 1, h => by
    rw [ofInitAt]
    exact lines_ofInitAt rest index (List.forall_mem_cons.1 h).2

end

theorem lines_ofTree? {tree : Tree} (h : Tree.Reached good tree.nodes) {declaration : Declaration}
    (hd : ofTree? tree = some declaration) : ∀ line ∈ declaration.lines, good line := by
  obtain ⟨typeName, htype, hd⟩ := Option.bind_eq_some_iff.1 hd
  obtain ⟨name, -, hd⟩ := Option.bind_eq_some_iff.1 hd
  obtain rfl := Option.some.inj hd
  obtain ⟨hs, hi⟩ := lines_ofInitAt tree.children 2 fun child => h.child
  have hline := h.line (Tree.not_isBare_of_childValue? htype)
  exact List.forall_mem_cons.2
    ⟨hline, List.forall_mem_append.2 ⟨List.forall_mem_map.2 hs, hi⟩⟩

end Declaration

namespace Assignment

theorem lines_ofTree? {tree : Tree} (h : Tree.Reached good tree.nodes) {assignment : Assignment}
    (ha : ofTree? tree = some assignment) : ∀ line ∈ assignment.lines, good line := by
  obtain ⟨name, hname, ha⟩ := Option.bind_eq_some_iff.1 ha
  obtain rfl := Option.some.inj ha
  refine List.forall_mem_cons.2 ⟨h.line (Tree.not_isBare_of_childValue? hname), ?_⟩
  dsimp only
  split
  · exact List.forall_mem_nil _
  · rename_i init hinit
    split
    · exact List.forall_mem_nil _
    · split
      · exact Expr.lines_ofChild? (h.child (List.mem_of_getElem? hinit)) 1
      · exact List.forall_mem_nil _

theorem lines_ofStep? {tree : Tree} (h : Tree.Reached good tree.nodes) {assignment : Assignment}
    (ha : ofStep? tree = some assignment) : ∀ line ∈ assignment.lines, good line := by
  obtain ⟨target, htarget, ha⟩ := Option.bind_eq_some_iff.1 ha
  obtain ⟨expression, hexpression, ha⟩ := Option.bind_eq_some_iff.1 ha
  obtain ⟨name, hname, ha⟩ := Option.bind_eq_some_iff.1 ha
  obtain rfl := Option.some.inj ha
  have hline := (h.child (List.mem_of_getElem? htarget)).line fun hb => by
    rw [hb.1] at hname
    exact absurd hname (by simp)
  exact List.forall_mem_cons.2
    ⟨hline, Expr.lines_ofTree? expression (h.child (List.mem_of_getElem? hexpression))⟩

end Assignment

namespace StructDefinition

mutual

theorem lines_fieldsOf : ∀ tree : Tree, Tree.Reached good tree.nodes →
    ∀ field ∈ fieldsOf tree, good field.line
  | ⟨symbol, line, value, children⟩, h => by
    unfold fieldsOf
    dsimp only
    split
    · rename_i htype _
      exact List.forall_mem_cons.2 ⟨h.line (Tree.not_isBare_of_childValue? htype),
        lines_fieldsAt children 3 fun child => h.child⟩
    · exact List.forall_mem_nil _

theorem lines_fieldsAt : ∀ (trees : List Tree) (index : Nat),
    (∀ tree ∈ trees, Tree.Reached good tree.nodes) → ∀ field ∈ fieldsAt trees index, good field.line
  | [], _, _ => by
    rw [fieldsAt]
    exact List.forall_mem_nil _
  | tree :: _, 0, h => by
    rw [fieldsAt]
    exact lines_fieldsOf tree (h tree List.mem_cons_self)
  | tree :: rest, index + 1, h => by
    rw [fieldsAt]
    exact lines_fieldsAt rest index (List.forall_mem_cons.1 h).2

end

theorem lines_ofTree? {tree : Tree} (h : Tree.Reached good tree.nodes)
    {definition : StructDefinition} (hd : ofTree? tree = some definition) :
    ∀ line ∈ definition.lines, good line := by
  obtain ⟨name, hname, hd⟩ := Option.bind_eq_some_iff.1 hd
  obtain rfl := Option.some.inj hd
  exact List.forall_mem_cons.2 ⟨h.line (Tree.not_isBare_of_childValue? hname),
    List.forall_mem_map.2 (lines_fieldsAt tree.children 3 fun child => h.child)⟩

end StructDefinition

/-! ## Statements -/

namespace Statement

theorem lines_ofTree {tree : Tree} (h : Tree.Reached good tree.nodes) {statement : Statement}
    (hs : statement ∈ ofTree tree) : ∀ line ∈ statement.ownLines, good line := by
  have hguard : ∀ index condition, tree.child? index = some condition →
      ∀ line ∈ (Guard.ofTree condition).lines, good line :=
    fun index condition hc => Guard.lines_ofTree (h.child (List.mem_of_getElem? hc))
  cases ofNode_of_mem_ofTree hs with
  | declare hn hd => exact Declaration.lines_ofTree? (h.of_mem_nodes hn) hd
  | assign hn ha => exact Assignment.lines_ofTree? (h.of_mem_nodes hn) ha
  | define hd => exact StructDefinition.lines_ofTree? h hd
  | ifThen hsymbol hc | ifElse hsymbol hc => exact hguard 2 _ hc
  | whileLoop hsymbol hc =>
    exact List.forall_mem_append.2 ⟨hguard 2 _ hc, List.forall_mem_nil _⟩
  | doWhile =>
    refine List.forall_mem_flatMap.2 fun guard hg => ?_
    obtain ⟨condition, hc, rfl⟩ := Option.map_eq_some_iff.1 (Option.mem_toList.1 hg)
    exact hguard 6 condition hc
  | forLoop hsymbol hc =>
    refine List.forall_mem_append.2 ⟨hguard 4 _ hc, List.forall_mem_flatMap.2 fun step hstep => ?_⟩
    obtain ⟨node, hn, hstep⟩ := Option.bind_eq_some_iff.1 (Option.mem_toList.1 hstep)
    exact Assignment.lines_ofStep? (h.child (List.mem_of_getElem? hn)) hstep

/-- All lines in the program of a tree are good, if the nodes that were reached stand on good
lines. -/
theorem lines_listOfTree (tree : Tree) (h : Tree.Reached good tree.nodes) :
    ∀ line ∈ allLines (listOfTree tree), good line := by
  intro line hl
  obtain ⟨part, hp, ho⟩ := exists_ownLines hl
  obtain ⟨node, hn, hs⟩ := exists_node tree hp
  exact lines_ofTree (h.of_mem_nodes hn) hs line ho

end Statement
end
end FrontEnd
