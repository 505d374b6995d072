import FrontEnd.Proofs.Program.Variables

/-! # The texts of a program

The names and literals in a program are values of nodes of the tree that it was read from, whatever
the tree looks like.

* `Expr.texts`, `Guard.texts`, `Statement.ownTexts`: the names and literals in a statement, but for
  those in its bodies.
* `Expr.carries_ofTree?`, `Guard.carries_ofTree`: where the texts of expressions and guards are.
* `Statement.carries_of_mem_ownTexts`: a tree carries all texts in its program.
-/

namespace FrontEnd
set_option autoImplicit false

/-! ## Texts -/

def Expr.texts : Expr → List String
  | int text | float text | name _ text => [text]
  | binary _ _ left right => left.texts ++ right.texts

/-- A lost expression has no texts. -/
def Expr.textsOf : Option Expr → List String
  | some expression => expression.texts
  | none => []

def Guard.texts : Guard → List String
  | compare _ _ left right => Expr.textsOf left ++ Expr.textsOf right
  | truth value => Expr.textsOf value

/-- The declared name and the texts of the initializer. -/
def Declaration.texts (declaration : Declaration) : List String :=
  declaration.name :: Expr.textsOf declaration.initializer.join

def Assigned.texts : Assigned → List String
  | suffix => []
  | .value expression => Expr.textsOf expression

def Assignment.texts (assignment : Assignment) : List String :=
  assignment.name :: assignment.right.texts

/-- The texts in a statement, but for those in its bodies. Structs have no code. -/
def Statement.ownTexts : Statement → List String
  | declare declaration => declaration.texts
  | assign assignment => assignment.texts
  | define _ => []
  | ifThen guard _ | ifElse guard _ _ => guard.texts
  | loop guard _ step => guard.texts ++ step.toList.flatMap Assignment.texts
  | doWhile _ guard => guard.toList.flatMap Guard.texts

theorem Expr.textsOf_join (op : String) (line : Nat) (left right : Option Expr) :
    textsOf (join op line left right) = textsOf left ++ textsOf right := by
  cases left with
  | none => rfl
  | some left =>
    cases right with
    | none => exact (List.append_nil _).symm
    | some right => rfl

/-! ## Forests -/

namespace Tree

/-- Some node of one of the trees has the value. -/
def ForestCarries (trees : List Tree) (value : String) : Prop := ∃ tree ∈ trees, tree.Carries value

variable {tree child : Tree} {trees : List Tree} {value : String}

theorem ForestCarries.cons (h : ForestCarries trees value) (tree : Tree) :
    ForestCarries (tree :: trees) value := by
  obtain ⟨other, hm, hc⟩ := h
  exact ⟨other, List.mem_cons_of_mem _ hm, hc⟩

theorem Carries.forest (h : tree.Carries value) (trees : List Tree) :
    ForestCarries (tree :: trees) value :=
  ⟨tree, List.mem_cons_self, h⟩

theorem carries_of_children (tree : Tree) (h : ForestCarries tree.children value) :
    tree.Carries value := by
  obtain ⟨child, hm, hc⟩ := h
  exact hc.of_child hm

theorem Carries.of_child? (h : child.Carries value) {index : Nat}
    (hc : tree.child? index = some child) : tree.Carries value :=
  h.of_child (List.mem_of_getElem? hc)

end Tree

section
variable {text : String}

/-! ## Expressions -/

namespace Expr

mutual

theorem carries_ofTree? : ∀ tree : Tree, text ∈ textsOf (ofTree? tree) → tree.Carries text
  | ⟨symbol, line, value, []⟩, h => by
    unfold ofTree? ofLeaf? at h
    split at h
    · exact Tree.carries_of_value (congrArg some (List.mem_singleton.1 h).symm)
    · exact Tree.carries_of_value (congrArg some (List.mem_singleton.1 h).symm)
    · exact Tree.carries_of_value (congrArg some (List.mem_singleton.1 h).symm)
    · exact absurd h List.not_mem_nil
  | ⟨symbol, line, value, first :: rest⟩, h => by
    rw [ofTree?] at h
    refine Tree.carries_of_children ⟨symbol, line, value, first :: rest⟩ ?_
    split at h
    · exact (carries_ofFirst? rest h).cons first
    · rcases carries_joinTails rest h with h | h
      · exact (carries_ofTree? first h).forest rest
      · exact h.cons first

theorem carries_ofFirst? : ∀ trees : List Tree, text ∈ textsOf (ofFirst? trees) →
    Tree.ForestCarries trees text
  | [], h => by
    rw [ofFirst?] at h
    exact absurd h List.not_mem_nil
  | tree :: rest, h => by
    rw [ofFirst?] at h
    exact (carries_ofTree? tree h).forest rest

theorem carries_joinTails {left : Option Expr} : ∀ trees : List Tree,
    text ∈ textsOf (joinTails left trees) →
      text ∈ textsOf left ∨ Tree.ForestCarries trees text
  | [], h => by
    rw [joinTails] at h
    exact .inl h
  | tail :: rest, h => by
    rw [joinTails] at h
    rcases carries_joinTails rest h with h | h
    · exact (carries_joinTail tail h).imp_right fun h => h.forest rest
    · exact .inr (h.cons tail)

theorem carries_joinTail {left : Option Expr} : ∀ tree : Tree,
    text ∈ textsOf (joinTail left tree) → text ∈ textsOf left ∨ tree.Carries text
  | ⟨symbol, line, value, []⟩, h => by
    rw [joinTail] at h
    exact .inl h
  | ⟨symbol, line, value, head :: rest⟩, h => by
    have hup : Tree.ForestCarries (head :: rest) text →
        Tree.Carries ⟨symbol, line, value, head :: rest⟩ text :=
      Tree.carries_of_children ⟨symbol, line, value, head :: rest⟩
    unfold joinTail at h
    split at h
    · rcases carries_joinSecond rest h with h | h
      · rw [textsOf_join, List.mem_append] at h
        exact h.imp_right fun h => hup ((carries_ofFirst? rest h).cons head)
      · exact .inr (hup (h.cons head))
    · split at h
      · exact .inl h
      · rename_i symbol' line' value' leaf operand _
        split at h
        · rcases carries_joinFirst rest h with h | h
          · rw [textsOf_join, List.mem_append] at h
            refine h.imp_right fun h => hup (Tree.Carries.forest ?_ rest)
            exact Tree.carries_of_children ⟨symbol', line', value', leaf :: operand⟩
              ((carries_ofFirst? operand h).cons leaf)
          · exact .inr (hup (h.cons _))
        · exact .inl h

theorem carries_joinFirst {left : Option Expr} : ∀ trees : List Tree,
    text ∈ textsOf (joinFirst left trees) → text ∈ textsOf left ∨ Tree.ForestCarries trees text
  | [], h => by
    rw [joinFirst] at h
    exact .inl h
  | tail :: rest, h => by
    rw [joinFirst] at h
    exact (carries_joinTail tail h).imp_right fun h => h.forest rest

theorem carries_joinSecond {left : Option Expr} : ∀ trees : List Tree,
    text ∈ textsOf (joinSecond left trees) → text ∈ textsOf left ∨ Tree.ForestCarries trees text
  | [], h => by
    rw [joinSecond] at h
    exact .inl h
  | tail :: rest, h => by
    rw [joinSecond] at h
    exact (carries_joinFirst rest h).imp_right fun h => h.cons tail

end

theorem carries_ofChild? {tree : Tree} {index : Nat}
    (h : text ∈ textsOf ((tree.child? index).bind ofTree?)) : tree.Carries text := by
  cases hc : tree.child? index with
  | none =>
    rw [hc] at h
    exact absurd h List.not_mem_nil
  | some child =>
    rw [hc] at h
    exact (carries_ofTree? child h).of_child? hc

end Expr

namespace Guard

theorem carries_comparison? {tree : Tree} {guard : Guard} (hg : comparison? tree = some guard)
    (h : text ∈ guard.texts) : tree.Carries text := by
  obtain ⟨node, hn, left, tail, relation, right, op, hc, htail, -, rfl⟩ := exists_node hg
  refine Tree.Carries.of_mem_nodes ?_ hn
  rcases List.mem_append.1 h with h | h
  · exact (Expr.carries_ofTree? left h).of_child (by simp [hc])
  · have hright : tail.Carries text := (Expr.carries_ofTree? right h).of_child (by simp [htail])
    exact hright.of_child (by simp [hc])

theorem carries_ofTree {tree : Tree} (h : text ∈ (ofTree tree).texts) : tree.Carries text := by
  unfold ofTree at h
  cases hc : comparison? tree with
  | none =>
    rw [hc] at h
    exact Expr.carries_ofTree? tree h
  | some guard =>
    rw [hc] at h
    exact carries_comparison? hc h

end Guard

/-! ## Declarations and assignments -/

namespace Declaration

mutual

theorem carries_ofInit : ∀ tree : Tree, text ∈ Expr.textsOf (ofInit tree).2.join →
    tree.Carries text
  | ⟨symbol, line, value, children⟩, h => by
    unfold ofInit at h
    dsimp only at h
    split at h
    · exact Tree.carries_of_children ⟨symbol, line, value, children⟩
        (carries_ofInitAt children 3 h)
    · split at h
      · cases hc : Tree.child? ⟨symbol, line, value, children⟩ 1 with
        | none =>
          rw [hc] at h
          exact absurd h List.not_mem_nil
        | some child =>
          rw [hc] at h
          exact (Expr.carries_ofTree? child h).of_child? hc
      · exact absurd h List.not_mem_nil

theorem carries_ofInitAt : ∀ (trees : List Tree) (index : Nat),
    text ∈ Expr.textsOf (ofInitAt trees index).2.join → Tree.ForestCarries trees text
  | [], _, h => by
    rw [ofInitAt] at h
    exact absurd h List.not_mem_nil
  | tree :: rest, 0, h => by
    rw [ofInitAt] at h
    exact (carries_ofInit tree h).forest rest
  | tree :: rest, index + 1, h => by
    rw [ofInitAt] at h
    exact (carries_ofInitAt rest index h).cons tree

end

theorem carries_ofTree? {tree : Tree} {declaration : Declaration}
    (hd : ofTree? tree = some declaration) (h : text ∈ declaration.texts) :
    tree.Carries text := by
  rcases List.mem_cons.1 h with rfl | h
  · exact carries_name hd
  · obtain ⟨typeName, -, hd⟩ := Option.bind_eq_some_iff.1 hd
    obtain ⟨name, -, hd⟩ := Option.bind_eq_some_iff.1 hd
    obtain rfl := Option.some.inj hd
    exact Tree.carries_of_children tree (carries_ofInitAt tree.children 2 h)

end Declaration

namespace Assignment

theorem carries_ofTree? {tree : Tree} {assignment : Assignment}
    (ha : ofTree? tree = some assignment) (h : text ∈ assignment.texts) : tree.Carries text := by
  obtain ⟨name, hname, ha⟩ := Option.bind_eq_some_iff.1 ha
  obtain rfl := Option.some.inj ha
  rcases List.mem_cons.1 h with rfl | h
  · exact Tree.carries_of_childValue? hname
  · dsimp only at h
    split at h
    · exact absurd h List.not_mem_nil
    · rename_i init hinit
      split at h
      · exact absurd h List.not_mem_nil
      · split at h
        · exact (Expr.carries_ofChild? h).of_child? hinit
        · exact absurd h List.not_mem_nil

theorem carries_ofStep? {tree : Tree} {assignment : Assignment}
    (ha : ofStep? tree = some assignment) (h : text ∈ assignment.texts) : tree.Carries text := by
  obtain ⟨target, htarget, ha⟩ := Option.bind_eq_some_iff.1 ha
  obtain ⟨expression, hexpression, ha⟩ := Option.bind_eq_some_iff.1 ha
  obtain ⟨name, hname, ha⟩ := Option.bind_eq_some_iff.1 ha
  obtain rfl := Option.some.inj ha
  rcases List.mem_cons.1 h with rfl | h
  · exact (Tree.carries_of_value hname).of_child? htarget
  · exact (Expr.carries_ofTree? expression h).of_child? hexpression

end Assignment

/-! ## Statements -/

namespace Statement

theorem carries_of_mem_ofTree {tree : Tree} {statement : Statement} (hs : statement ∈ ofTree tree)
    (h : text ∈ statement.ownTexts) : tree.Carries text := by
  have hguard : ∀ index condition, tree.child? index = some condition →
      text ∈ (Guard.ofTree condition).texts → tree.Carries text :=
    fun index condition hc h => (Guard.carries_ofTree h).of_child? hc
  cases ofNode_of_mem_ofTree hs with
  | declare hn hd => exact (Declaration.carries_ofTree? hd h).of_mem_nodes hn
  | assign hn ha => exact (Assignment.carries_ofTree? ha h).of_mem_nodes hn
  | define hd => exact absurd h List.not_mem_nil
  | ifThen hsymbol hc | ifElse hsymbol hc => exact hguard 2 _ hc h
  | whileLoop hsymbol hc =>
    rcases List.mem_append.1 h with h | h
    · exact hguard 2 _ hc h
    · exact absurd h List.not_mem_nil
  | doWhile =>
    obtain ⟨guard, hg, h⟩ := List.mem_flatMap.1 h
    obtain ⟨condition, hc, rfl⟩ := Option.map_eq_some_iff.1 (Option.mem_toList.1 hg)
    exact hguard 6 condition hc h
  | forLoop hsymbol hc =>
    rcases List.mem_append.1 h with h | h
    · exact hguard 4 _ hc h
    · obtain ⟨step, hstep, h⟩ := List.mem_flatMap.1 h
      obtain ⟨node, hn, hstep⟩ := Option.bind_eq_some_iff.1 (Option.mem_toList.1 hstep)
      exact (Assignment.carries_ofStep? hstep h).of_child? hn

/-- Whatever the program of a tree names or writes down, the tree carries it. -/
theorem carries_of_mem_ownTexts (tree : Tree) {part : Statement}
    (hp : part ∈ allParts (listOfTree tree)) (h : text ∈ part.ownTexts) : tree.Carries text := by
  obtain ⟨node, hn, hs⟩ := exists_node tree hp
  exact (carries_of_mem_ofTree hs h).of_mem_nodes hn

end Statement
end
end FrontEnd
