import FrontEnd.Proofs.Program.Leaves
import FrontEnd.Proofs.Program.Parts

/-! # Renaming what is read

Reading a tree with other names at its `ID` leaves gives the same program with other names. Nothing
is read off the spelling of a name, and literals, which are no names, stay as they are.

* `Renaming`: an injective map of texts that moves identifiers only, and none that looks like a
  temporary.
* `Tree.rename`, `Statement.rename`: other names in a tree and in a program.
* `Tree.IsRead`: trees in which the places of names and literals are known.
* `Expr.ofTree?_rename`, `Guard.ofTree_rename`, `Declaration.ofTree?_rename`,
  `Statement.listOfTree_rename`: reading a renamed tree.
-/

namespace FrontEnd
set_option autoImplicit false

open Grammar (expanded)

/-! ## Renamings -/

/-- The text is a word that is not reserved. -/
def IsIdentifier (text : String) : Prop :=
  word? text.toList = some text.toList ∧ Category.ofWord text = .identifier

instance (text : String) : Decidable (IsIdentifier text) := inferInstanceAs (Decidable (_ ∧ _))

/-- An injective map of texts that moves identifiers only, and none that is a `t` and digits. -/
structure Renaming where
  map : String → String
  injective : Function.Injective map
  of_not_identifier : ∀ text, ¬ IsIdentifier text → map text = text
  of_temporary : ∀ text, isTemporaryName text = true → map text = text

namespace Renaming

instance : CoeFun Renaming fun _ => String → String := ⟨map⟩

variable (r : Renaming)

theorem of_literal {text : String} (h : isLiteral text = true) : r text = text := by
  refine r.of_not_identifier text fun hi => ?_
  have hname := isLiteral_of_word? hi.1
  rw [String.ofList_toList, h] at hname
  exact absurd hname (by simp)

@[simp] theorem zero : r "0" = "0" := r.of_literal (by decide)

@[simp] theorem temporary (number : Nat) : r (Lowering.temporary number) = Lowering.temporary number :=
  r.of_temporary _ (isTemporaryName_temporary number)

theorem beq_eq (text other : String) : (r text == r other) = (text == other) := by
  rw [Bool.eq_iff_iff, beq_iff_eq, beq_iff_eq, r.injective.eq_iff]

end Renaming

/-! ## Trees -/

namespace Tree

mutual

/-- Other names at the `ID` nodes. -/
def rename (r : Renaming) : Tree → Tree
  | ⟨symbol, line, value, children⟩ =>
    ⟨symbol, line, if symbol = "ID" then value.map r else value, renameForest r children⟩

def renameForest (r : Renaming) : List Tree → List Tree
  | [] => []
  | tree :: trees => tree.rename r :: renameForest r trees

end

variable (r : Renaming)

@[simp] theorem renameForest_eq (trees : List Tree) : renameForest r trees = trees.map (rename r) := by
  induction trees with
  | nil => rw [renameForest, List.map_nil]
  | cons tree trees ih => rw [renameForest, ih, List.map_cons]

variable (tree : Tree)

@[simp] theorem symbol_rename : (tree.rename r).symbol = tree.symbol := by
  cases tree
  rw [rename]

@[simp] theorem line_rename : (tree.rename r).line = tree.line := by
  cases tree
  rw [rename]

@[simp] theorem children_rename : (tree.rename r).children = tree.children.map (rename r) := by
  cases tree
  rw [rename, renameForest_eq]

theorem value_rename :
    (tree.rename r).value = if tree.symbol = "ID" then tree.value.map r else tree.value := by
  cases tree
  rw [rename]

@[simp] theorem child?_rename (index : Nat) :
    (tree.rename r).child? index = (tree.child? index).map (rename r) := by
  rw [child?, children_rename, List.getElem?_map]
  rfl

@[simp] theorem hasSymbol_rename (symbol : String) :
    (tree.rename r).hasSymbol symbol = tree.hasSymbol symbol := by
  rw [hasSymbol, symbol_rename]
  rfl

@[simp] theorem startsWith_rename (symbol : String) :
    (tree.rename r).startsWith symbol = tree.startsWith symbol := by
  rw [startsWith, child?_rename, startsWith]
  cases tree.child? 0 with
  | none => rfl
  | some child => exact child.hasSymbol_rename r symbol

/-- Operators are not names. -/
@[simp] theorem operator?_rename : (tree.rename r).operator? = tree.operator? := by
  unfold operator?
  rw [symbol_rename]
  split
  case h_8 hs => rw [value_rename, hs, if_neg (by decide)]
  all_goals rfl

variable {tree} {index : Nat}

/-- The value of a child that is a name. -/
theorem childValue?_rename_name
    (h : ∀ child, tree.child? index = some child → child.symbol = "ID") :
    (tree.rename r).childValue? index = (tree.childValue? index).map r := by
  rw [childValue?, child?_rename, childValue?]
  cases hc : tree.child? index with
  | none => rfl
  | some child => exact (child.value_rename r).trans (if_pos (h child hc))

/-- The value of a child that is none. -/
theorem childValue?_rename_other
    (h : ∀ child, tree.child? index = some child → child.symbol ≠ "ID") :
    (tree.rename r).childValue? index = tree.childValue? index := by
  rw [childValue?, child?_rename, childValue?]
  cases hc : tree.child? index with
  | none => rfl
  | some child => exact (child.value_rename r).trans (if_neg (h child hc))

end Tree

/-! ## Programs -/

namespace Expr

/-- Other names; literals are texts as well. -/
def rename (r : Renaming) : Expr → Expr
  | int text => int (r text)
  | float text => float (r text)
  | name line text => name line (r text)
  | binary op line left right => binary op line (left.rename r) (right.rename r)

end Expr

def Guard.rename (r : Renaming) : Guard → Guard
  | compare op line left right => compare op line (left.map (.rename r)) (right.map (.rename r))
  | truth value => truth (value.map (.rename r))

def Declaration.rename (r : Renaming) (declaration : Declaration) : Declaration :=
  { declaration with
    name := r declaration.name
    initializer := declaration.initializer.map (Option.map (.rename r)) }

def Assigned.rename (r : Renaming) : Assigned → Assigned
  | suffix => suffix
  | .value expression => .value (expression.map (.rename r))

def Assignment.rename (r : Renaming) (assignment : Assignment) : Assignment :=
  { assignment with name := r assignment.name, right := assignment.right.rename r }

def Field.rename (r : Renaming) (field : Field) : Field := { field with name := r field.name }

def StructDefinition.rename (r : Renaming) (definition : StructDefinition) : StructDefinition :=
  { definition with name := r definition.name, fields := definition.fields.map (.rename r) }

namespace Statement

mutual

def rename (r : Renaming) : Statement → Statement
  | declare declaration => declare (declaration.rename r)
  | assign assignment => assign (assignment.rename r)
  | define definition => define (definition.rename r)
  | ifThen guard body => ifThen (guard.rename r) (renameAll r body)
  | ifElse guard body otherwise =>
    ifElse (guard.rename r) (renameAll r body) (renameAll r otherwise)
  | loop guard body step => loop (guard.rename r) (renameAll r body) (step.map (.rename r))
  | doWhile body guard => doWhile (renameAll r body) (guard.map (.rename r))

def renameAll (r : Renaming) : List Statement → List Statement
  | [] => []
  | statement :: rest => statement.rename r :: renameAll r rest

end

@[simp] theorem renameAll_eq (r : Renaming) (program : List Statement) :
    renameAll r program = program.map (rename r) := by
  induction program with
  | nil => rw [renameAll, List.map_nil]
  | cons statement program ih => rw [renameAll, ih, List.map_cons]

end Statement

/-! ## Trees that can be read -/

/-- The tree follows the rules, so that the places of names are known, and its literals are. -/
structure Tree.IsRead (tree : Tree) : Prop where
  follows : tree.FollowsRules expanded
  literals : ∀ node ∈ tree.nodes, node.symbol = "INT" ∨ node.symbol = "FLOAT" →
    ∀ text, node.value = some text → isLiteral text = true

theorem Tree.IsRead.of_child? {tree child : Tree} (h : tree.IsRead) {index : Nat}
    (hc : tree.child? index = some child) : child.IsRead where
  follows := h.follows.child (List.mem_of_getElem? hc)
  literals node hn := h.literals node (mem_nodes_of_child hn (List.mem_of_getElem? hc))

theorem Tree.IsRead.child {tree child : Tree} (h : tree.IsRead) (hc : child ∈ tree.children) :
    child.IsRead where
  follows := h.follows.child hc
  literals node hn := h.literals node (mem_nodes_of_child hn hc)

variable {r : Renaming}

/-! ## Expressions -/

namespace Expr

theorem join_rename (op : String) (line : Nat) (left right : Option Expr) :
    join op line (left.map (rename r)) (right.map (rename r)) =
      (join op line left right).map (rename r) := by
  cases left <;> cases right <;> rfl

theorem ofLeaf?_rename {symbol : String} {line : Nat} {value : Option String}
    (h : symbol = "INT" ∨ symbol = "FLOAT" → ∀ text, value = some text → isLiteral text = true) :
    ofLeaf? symbol line (if symbol = "ID" then value.map r else value) =
      (ofLeaf? symbol line value).map (rename r) := by
  by_cases hs : symbol = "ID"
  · subst hs
    cases value <;> rfl
  · rw [if_neg hs]
    unfold ofLeaf?
    split
    · exact congrArg (some ∘ int) (r.of_literal (h (Or.inl rfl) _ rfl)).symm
    · exact congrArg (some ∘ float) (r.of_literal (h (Or.inr rfl) _ rfl)).symm
    · exact absurd rfl hs
    · rfl

mutual

theorem ofTree?_rename : ∀ tree : Tree, tree.IsRead →
    ofTree? (tree.rename r) = (ofTree? tree).map (rename r)
  | ⟨symbol, line, value, []⟩, h => by
    rw [Tree.rename, Tree.renameForest, ofTree?, ofTree?]
    exact ofLeaf?_rename (h.literals _ (Tree.mem_nodes_self _))
  | ⟨symbol, line, value, first :: rest⟩, h => by
    have hfirst : first.IsRead := h.child List.mem_cons_self
    have hrest : ∀ tree ∈ rest, tree.IsRead := fun tree ht => h.child (List.mem_cons_of_mem _ ht)
    rw [Tree.rename, Tree.renameForest, ofTree?, ofTree?, Tree.hasSymbol_rename,
      Tree.renameForest_eq]
    split
    · exact ofFirst?_rename rest hrest
    · rw [ofTree?_rename first hfirst]
      exact joinTails_rename _ rest hrest

theorem ofFirst?_rename : ∀ trees : List Tree, (∀ tree ∈ trees, tree.IsRead) →
    ofFirst? (trees.map (Tree.rename r)) = (ofFirst? trees).map (rename r)
  | [], _ => by rw [List.map_nil, ofFirst?]; rfl
  | tree :: rest, h => by
    rw [List.map_cons, ofFirst?, ofFirst?]
    exact ofTree?_rename tree (h tree List.mem_cons_self)

theorem joinTails_rename (left : Option Expr) : ∀ trees : List Tree,
    (∀ tree ∈ trees, tree.IsRead) →
      joinTails (left.map (rename r)) (trees.map (Tree.rename r)) =
        (joinTails left trees).map (rename r)
  | [], _ => by rw [List.map_nil, joinTails, joinTails]
  | tail :: rest, h => by
    rw [List.forall_mem_cons] at h
    rw [List.map_cons, joinTails, joinTails, joinTail_rename left tail h.1,
      joinTails_rename _ rest h.2]

theorem joinTail_rename (left : Option Expr) : ∀ tree : Tree, tree.IsRead →
    joinTail (left.map (rename r)) (tree.rename r) = (joinTail left tree).map (rename r)
  | ⟨symbol, line, value, []⟩, _ => by
    rw [Tree.rename, Tree.renameForest, joinTail, joinTail]
  | ⟨symbol, line, value, ⟨headSymbol, headLine, headValue, []⟩ :: rest⟩, h => by
    have hrest : ∀ tree ∈ rest, tree.IsRead := fun tree ht => h.child (List.mem_cons_of_mem _ ht)
    have hop := Tree.operator?_rename r ⟨headSymbol, headLine, headValue, []⟩
    simp only [Tree.rename, Tree.renameForest, Tree.renameForest_eq] at hop ⊢
    rw [joinTail, joinTail, hop]
    split
    · rw [ofFirst?_rename rest hrest, join_rename]
      exact joinSecond_rename _ rest hrest
    · rfl
  | ⟨symbol, line, value, ⟨headSymbol, headLine, headValue, leaf :: operand⟩ :: rest⟩, h => by
    have hhead := h.child List.mem_cons_self
    have hrest : ∀ tree ∈ rest, tree.IsRead := fun tree ht => h.child (List.mem_cons_of_mem _ ht)
    have hoperand : ∀ tree ∈ operand, tree.IsRead := fun tree ht =>
      hhead.child (List.mem_cons_of_mem _ ht)
    have hop := Tree.operator?_rename r ⟨headSymbol, headLine, headValue, leaf :: operand⟩
    simp only [Tree.rename, Tree.renameForest, Tree.renameForest_eq] at hop ⊢
    rw [joinTail, joinTail, hop, leaf.operator?_rename r]
    split
    · rw [ofFirst?_rename rest hrest, join_rename]
      exact joinSecond_rename _ rest hrest
    · split
      · rw [Tree.line_rename, ofFirst?_rename operand hoperand, join_rename]
        exact joinFirst_rename _ rest hrest
      · rfl

theorem joinFirst_rename (left : Option Expr) : ∀ trees : List Tree,
    (∀ tree ∈ trees, tree.IsRead) →
      joinFirst (left.map (rename r)) (trees.map (Tree.rename r)) =
        (joinFirst left trees).map (rename r)
  | [], _ => by rw [List.map_nil, joinFirst, joinFirst]
  | tail :: rest, h => by
    rw [List.map_cons, joinFirst, joinFirst]
    exact joinTail_rename left tail (h tail List.mem_cons_self)

theorem joinSecond_rename (left : Option Expr) : ∀ trees : List Tree,
    (∀ tree ∈ trees, tree.IsRead) →
      joinSecond (left.map (rename r)) (trees.map (Tree.rename r)) =
        (joinSecond left trees).map (rename r)
  | [], _ => by rw [List.map_nil, joinSecond, joinSecond]
  | tree :: rest, h => by
    rw [List.map_cons, joinSecond, joinSecond]
    exact joinFirst_rename left rest fun other ho => h other (List.mem_cons_of_mem _ ho)

end

end Expr

/-- The expression of a child. -/
theorem Expr.ofChild?_rename {tree : Tree} (h : tree.IsRead) (index : Nat) :
    ((tree.rename r).child? index).map ofTree? =
      ((tree.child? index).map ofTree?).map (Option.map (rename r)) := by
  rw [Tree.child?_rename]
  cases hc : tree.child? index with
  | none => rfl
  | some child => exact congrArg some (ofTree?_rename child (h.of_child? hc))

/-! ## Guards -/

theorem Guard.comparison?_rename (tree : Tree) (h : tree.IsRead) :
    comparison? (tree.rename r) = (comparison? tree).map (rename r) := by
  fun_induction comparison? tree with
  | case1 symbol line value only he =>
    simp [Tree.rename, Tree.renameForest, comparison?, he]
  | case2 symbol line value only he ih =>
    simp [Tree.rename, Tree.renameForest, comparison?, he, ih (h.child (by simp))]
  | case3 symbol line value left tail he ih =>
    simp [Tree.rename, Tree.renameForest, comparison?, he, ih (h.child (by simp))]
  | case4 symbol line value left tail relation right hc hs =>
    have hrelation : relation.symbol = "RELOP" := eq_of_beq hs
    have htail : ∀ tree ∈ tail.children, tree.IsRead := fun tree ht =>
      (h.child (by simp)).child ht
    have hright : right.IsRead := htail right (by simp [hc])
    have hleft := Expr.ofTree?_rename (r := r) left (h.child (by simp))
    have hop : (relation.rename r).value = relation.value := by
      rw [Tree.value_rename, hrelation, if_neg (by decide)]
    simp only [Tree.rename, Tree.renameForest, comparison?, Tree.children_rename, hc, List.map_cons,
      List.map_nil, Tree.hasSymbol_rename, hs, if_true, hop, Tree.line_rename, hleft,
      Expr.ofTree?_rename right hright, Option.map_map]
    rfl
  | case5 symbol line value left tail relation right hc hs =>
    simp [Tree.rename, Tree.renameForest, comparison?, hc, hs]
  | case6 symbol line value left tail hnil hc =>
    match hchildren : tail.children with
    | [] => exact absurd hchildren hnil
    | [only] => simp [Tree.rename, Tree.renameForest, comparison?, hchildren]
    | [relation, right] => exact absurd hchildren (hc relation right)
    | _ :: _ :: _ :: _ => simp [Tree.rename, Tree.renameForest, comparison?, hchildren]
  | case7 symbol line value paren inner last hs ih =>
    simp [Tree.rename, Tree.renameForest, comparison?, hs, ih (h.child (by simp))]
  | case8 symbol line value paren inner last hs =>
    simp [Tree.rename, Tree.renameForest, comparison?, hs]
  | case9 tree hone htwo hthree =>
    obtain ⟨symbol, line, value, children⟩ := tree
    match children with
    | [] => simp [Tree.rename, Tree.renameForest, comparison?]
    | [only] => exact absurd rfl (hone _ _ _ only)
    | [left, tail] => exact absurd rfl (htwo _ _ _ left tail)
    | [paren, inner, last] => exact absurd rfl (hthree _ _ _ paren inner last)
    | _ :: _ :: _ :: _ :: _ => simp [Tree.rename, Tree.renameForest, comparison?]

theorem Guard.ofTree_rename {tree : Tree} (h : tree.IsRead) :
    ofTree (tree.rename r) = (ofTree tree).rename r := by
  rw [ofTree, comparison?_rename tree h, Expr.ofTree?_rename tree h, ofTree]
  cases comparison? tree <;> rfl

/-! ## Declarations, assignments and structs -/

namespace Declaration

theorem ofInit_eq (init : Tree) :
    ofInit init =
      if init.startsWith "LB" then
        (⟨init.line, (init.childValue? 1).getD ""⟩ :: (ofInitAt init.children 3).1,
          (ofInitAt init.children 3).2)
      else if init.startsWith "ASSIGNOP" then ([], (init.child? 1).map Expr.ofTree?)
      else ([], none) := by
  cases init
  rw [ofInit]

mutual

theorem ofInit_rename : ∀ tree : Tree, tree.IsRead →
    ofInit (tree.rename r) = ((ofInit tree).1, (ofInit tree).2.map (Option.map (Expr.rename r)))
  | ⟨symbol, line, value, children⟩, h => by
    rw [ofInit_eq, ofInit_eq, Tree.startsWith_rename, Tree.startsWith_rename, Tree.line_rename,
      Tree.children_rename, ofInitAt_rename children 3 fun tree => h.child,
      Expr.ofChild?_rename h 1]
    split
    · rename_i hb
      rw [Tree.childValue?_rename_other r fun child hc => ?_]
      rw [Tree.symbol_behind "INT" h.follows hc (by decide) hb]
      decide
    · split <;> rfl

theorem ofInitAt_rename : ∀ (trees : List Tree) (index : Nat), (∀ tree ∈ trees, tree.IsRead) →
    ofInitAt (trees.map (Tree.rename r)) index =
      ((ofInitAt trees index).1, (ofInitAt trees index).2.map (Option.map (Expr.rename r)))
  | [], _, _ => by rw [List.map_nil, ofInitAt]; rfl
  | tree :: rest, 0, h => by
    rw [List.map_cons, ofInitAt, ofInitAt]
    exact ofInit_rename tree (h tree List.mem_cons_self)
  | tree :: rest, index + 1, h => by
    rw [List.map_cons, ofInitAt, ofInitAt]
    exact ofInitAt_rename rest index fun other ho => h other (List.mem_cons_of_mem _ ho)

end

theorem ofTree?_rename {tree : Tree} (h : tree.IsRead) (ht : tree.startsWith "TYPE" = true) :
    ofTree? (tree.rename r) = (ofTree? tree).map (rename r) := by
  have htype : (tree.rename r).childValue? 0 = tree.childValue? 0 :=
    Tree.childValue?_rename_other r fun child hc => by
      rw [Tree.symbol_behind "TYPE" h.follows hc (by decide) ht]
      decide
  have hname : (tree.rename r).childValue? 1 = (tree.childValue? 1).map r :=
    Tree.childValue?_rename_name r fun child hc =>
      Tree.symbol_behind "ID" h.follows hc (by decide) ht
  have hinit := ofInitAt_rename (r := r) tree.children 2 fun child => h.child
  unfold ofTree?
  rw [htype, hname, Tree.line_rename, Tree.children_rename, hinit]
  cases tree.childValue? 0 with
  | none => rfl
  | some typeName => cases tree.childValue? 1 <;> rfl

end Declaration

namespace Assignment

/-- What is assigned, by the node behind the name. -/
def rightOf : Option Tree → Assigned
  | none => .value none
  | some init =>
    if init.startsWith "LB" then .suffix
    else if init.startsWith "ASSIGNOP" then .value ((init.child? 1).bind Expr.ofTree?)
    else .value none

theorem ofTree?_eq (tree : Tree) :
    ofTree? tree = (tree.childValue? 0).map fun name => ⟨tree.line, name, rightOf (tree.child? 1)⟩ := by
  unfold ofTree? rightOf
  cases tree.childValue? 0 with
  | none => rfl
  | some name => cases tree.child? 1 <;> rfl

theorem rightOf_rename {found : Option Tree} (h : ∀ init ∈ found, init.IsRead) :
    rightOf (found.map (.rename r)) = (rightOf found).rename r := by
  cases found with
  | none => rfl
  | some init =>
    have hvalue : ((init.rename r).child? 1).bind Expr.ofTree? =
        ((init.child? 1).bind Expr.ofTree?).map (.rename r) := by
      rw [Tree.child?_rename]
      cases hc : init.child? 1 with
      | none => rfl
      | some child => exact Expr.ofTree?_rename child ((h init rfl).of_child? hc)
    rw [Option.map_some, rightOf, rightOf, Tree.startsWith_rename, Tree.startsWith_rename, hvalue]
    split
    · rfl
    · split <;> rfl

theorem ofTree?_rename {tree : Tree} (h : tree.IsRead) (ht : tree.startsWith "ID" = true) :
    ofTree? (tree.rename r) = (ofTree? tree).map (rename r) := by
  have hname : (tree.rename r).childValue? 0 = (tree.childValue? 0).map r :=
    Tree.childValue?_rename_name r fun child hc =>
      Tree.symbol_behind "ID" h.follows hc (by decide) ht
  rw [ofTree?_eq, hname, Tree.line_rename, Tree.child?_rename,
    rightOf_rename fun _ hc => h.of_child? hc, ofTree?_eq]
  cases tree.childValue? 0 <;> rfl

theorem ofStep?_rename {tree : Tree} (h : tree.IsRead) (hs : tree.symbol = "ForStep") :
    ofStep? (tree.rename r) = (ofStep? tree).map (rename r) := by
  unfold ofStep?
  rw [Tree.child?_rename, Tree.child?_rename]
  cases htarget : tree.child? 0 with
  | none => rfl
  | some target =>
    cases hexpression : tree.child? 2 with
    | none => rfl
    | some expression =>
      have hid := Tree.symbol_of_child? "ID" h.follows htarget (by decide) hs
      have hvalue : (target.rename r).value = target.value.map r :=
        (target.value_rename r).trans (if_pos hid)
      have hread := Expr.ofTree?_rename (r := r) expression (h.of_child? hexpression)
      simp only [Option.map_some, Option.bind_eq_bind, Option.bind_some, hvalue, hread,
        Tree.line_rename]
      cases target.value <;> rfl

end Assignment

namespace StructDefinition

theorem fieldsOf_eq (member : Tree) :
    fieldsOf member =
      match member.childValue? 0, member.childValue? 1 with
      | some typeName, some name => ⟨member.line, typeName, name⟩ :: fieldsAt member.children 3
      | _, _ => [] := by
  cases member
  unfold fieldsOf
  rfl

mutual

theorem fieldsOf_rename : ∀ tree : Tree, tree.IsRead → tree.symbol = "StructBody" →
    fieldsOf (tree.rename r) = (fieldsOf tree).map (Field.rename r)
  | ⟨symbol, line, value, children⟩, h, hs => by
    have htype : ∀ child, Tree.child? ⟨symbol, line, value, children⟩ 0 = some child →
        child.symbol ≠ "ID" := fun child hc => by
      rw [Tree.symbol_of_child? "TYPE" h.follows hc (by decide) hs]
      decide
    have hname : ∀ child, Tree.child? ⟨symbol, line, value, children⟩ 1 = some child →
        child.symbol = "ID" := fun child hc =>
      Tree.symbol_of_child? "ID" h.follows hc (by decide) hs
    have hrest := fieldsAt_rename children 3 fun child hc =>
      ⟨h.child (List.mem_of_getElem? hc),
        Tree.symbol_of_child? "StructBody" h.follows hc (by decide) hs⟩
    rw [fieldsOf_eq, fieldsOf_eq, Tree.childValue?_rename_other r htype,
      Tree.childValue?_rename_name r hname, Tree.line_rename, Tree.children_rename, hrest]
    cases Tree.childValue? ⟨symbol, line, value, children⟩ 0 with
    | none => rfl
    | some typeName => cases Tree.childValue? ⟨symbol, line, value, children⟩ 1 <;> rfl

theorem fieldsAt_rename : ∀ (trees : List Tree) (index : Nat),
    (∀ tree, trees[index]? = some tree → tree.IsRead ∧ tree.symbol = "StructBody") →
    fieldsAt (trees.map (Tree.rename r)) index = (fieldsAt trees index).map (Field.rename r)
  | [], _, _ => by rw [List.map_nil, fieldsAt, List.map_nil]
  | tree :: rest, 0, h => by
    rw [List.map_cons, fieldsAt, fieldsAt]
    exact fieldsOf_rename tree (h tree rfl).1 (h tree rfl).2
  | tree :: rest, index + 1, h => by
    rw [List.map_cons, fieldsAt, fieldsAt]
    exact fieldsAt_rename rest index h

end

theorem ofTree?_rename {tree : Tree} (h : tree.IsRead) (hs : tree.symbol = "StructDeclaration") :
    ofTree? (tree.rename r) = (ofTree? tree).map (rename r) := by
  have hname : (tree.rename r).childValue? 1 = (tree.childValue? 1).map r :=
    Tree.childValue?_rename_name r fun child hc =>
      Tree.symbol_of_child? "ID" h.follows hc (by decide) hs
  have hfields := fieldsAt_rename (r := r) tree.children 3 fun child hc =>
    ⟨h.of_child? hc, Tree.symbol_of_child? "StructBody" h.follows hc (by decide) hs⟩
  unfold ofTree?
  rw [hname, Tree.line_rename, Tree.children_rename, hfields]
  cases tree.childValue? 1 <;> rfl

end StructDefinition

/-! ## Statements -/

namespace Statement

theorem ofVariable?_rename {tree : Tree} (h : tree.IsRead) :
    ofVariable? (tree.rename r) = (ofVariable? tree).map (rename r) := by
  rw [ofVariable?, Tree.startsWith_rename, Tree.startsWith_rename, ofVariable?]
  split
  · rename_i ht
    rw [Declaration.ofTree?_rename h ht, Option.map_map, Option.map_map]
    rfl
  · split
    · rename_i ht
      rw [Assignment.ofTree?_rename h ht, Option.map_map, Option.map_map]
      rfl
    · rfl

theorem initialOf_rename {tree : Tree} (h : tree.IsRead) :
    initialOf (tree.rename r) = (initialOf tree).map (rename r) := by
  unfold initialOf
  rw [Tree.child?_rename]
  cases hholder : tree.child? 2 with
  | none => rfl
  | some holder =>
    rw [Option.map_some, Option.bind_some, Option.bind_some, Tree.child?_rename]
    cases hnode : holder.child? 0 with
    | none => rfl
    | some node =>
      rw [Option.map_some, Option.bind_some, Option.bind_some,
        ofVariable?_rename ((h.of_child? hholder).of_child? hnode)]
      cases ofVariable? node <;> rfl

mutual

theorem listOfTree_rename : ∀ tree : Tree, tree.IsRead →
    listOfTree (tree.rename r) = (listOfTree tree).map (rename r)
  | ⟨symbol, line, value, children⟩, h => by
    have hc : ∀ tree ∈ children, tree.IsRead := fun tree => h.child
    rw [Tree.rename, Tree.renameForest_eq, listOfTree, listOfTree, listOfParts_rename children hc,
      listOfLast_rename children hc, List.map_append]

theorem listOfParts_rename : ∀ trees : List Tree, (∀ tree ∈ trees, tree.IsRead) →
    listOfParts (trees.map (Tree.rename r)) = (listOfParts trees).map (rename r)
  | [], _ => by rw [List.map_nil, listOfParts, List.map_nil]
  | tree :: rest, h => by
    rw [List.forall_mem_cons] at h
    rw [List.map_cons, listOfParts, listOfParts, Tree.hasSymbol_rename, ofTree_rename tree h.1,
      listOfParts_rename rest h.2, List.map_append]
    split <;> rfl

theorem listOfLast_rename : ∀ trees : List Tree, (∀ tree ∈ trees, tree.IsRead) →
    listOfLast (trees.map (Tree.rename r)) = (listOfLast trees).map (rename r)
  | [], _ => by rw [List.map_nil, listOfLast, List.map_nil]
  | tree :: rest, h => by
    rw [List.forall_mem_cons] at h
    have hany : (rest.map (Tree.rename r)).any (·.hasSymbol "Program") =
        rest.any (·.hasSymbol "Program") := by
      rw [List.any_map]
      exact congrArg rest.any (funext fun tree => tree.hasSymbol_rename r "Program")
    rw [List.map_cons, listOfLast, listOfLast, Tree.hasSymbol_rename, hany]
    split
    · exact listOfTree_rename tree h.1
    · exact listOfLast_rename rest h.2

theorem ofTree_rename : ∀ tree : Tree, tree.IsRead →
    ofTree (tree.rename r) = (ofTree tree).map (rename r)
  | ⟨symbol, line, value, children⟩, h => by
    have hc : ∀ tree ∈ children, tree.IsRead := fun tree => h.child
    have hvariable := ofVariable?_rename (r := r) h
    have hinitial := initialOf_rename (r := r) h
    have hchild (index : Nat) := Tree.child?_rename r ⟨symbol, line, value, children⟩ index
    rw [Tree.rename, Tree.renameForest_eq] at *
    unfold ofTree
    dsimp only
    rw [hvariable, hinitial]
    simp only [hchild, bodyAt_rename children _ hc, elseAt?_rename children _ hc]
    split
    · cases ofVariable? ⟨"VariableDeclaration", line, value, children⟩ <;> rfl
    · have hdefinition := StructDefinition.ofTree?_rename (r := r) h rfl
      rw [Tree.rename, Tree.renameForest_eq] at hdefinition
      rw [hdefinition]
      cases StructDefinition.ofTree? ⟨"StructDeclaration", line, value, children⟩ <;> rfl
    -- `if`
    · cases hcondition : Tree.child? ⟨"IfStatement", line, value, children⟩ 2 with
      | none => rfl
      | some condition =>
        have hguard := Guard.ofTree_rename (r := r) (h.of_child? hcondition)
        cases elseAt? children 7 <;> simp [rename, hguard]
    -- `while`
    · cases hcondition : Tree.child? ⟨"WhileStatement", line, value, children⟩ 2 with
      | none => rfl
      | some condition =>
        simp [rename, Guard.ofTree_rename (r := r) (h.of_child? hcondition)]
    -- `do`
    · cases hcondition : Tree.child? ⟨"DoWhileStatement", line, value, children⟩ 6 with
      | none => simp [rename]
      | some condition =>
        simp [rename, Guard.ofTree_rename (r := r) (h.of_child? hcondition)]
    -- `for`
    · cases hcondition : Tree.child? ⟨"ForStatement", line, value, children⟩ 4 with
      | none => rfl
      | some condition =>
        have hguard := Guard.ofTree_rename (r := r) (h.of_child? hcondition)
        cases hstep : Tree.child? ⟨"ForStatement", line, value, children⟩ 6 with
        | none => simp [rename, hguard]
        | some step =>
          have hs : step.symbol = "ForStep" := Tree.symbol_of_child? "ForStep" h.follows hstep
            (by decide) (show _ = "ForStatement" from rfl)
          simp [rename, hguard, Assignment.ofStep?_rename (r := r) (h.of_child? hstep) hs]
    · rfl

theorem bodyAt_rename : ∀ (trees : List Tree) (index : Nat), (∀ tree ∈ trees, tree.IsRead) →
    bodyAt (trees.map (Tree.rename r)) index = (bodyAt trees index).map (rename r)
  | [], _, _ => by rw [List.map_nil, bodyAt, List.map_nil]
  | tree :: rest, 0, h => by
    rw [List.map_cons, bodyAt, bodyAt]
    exact listOfTree_rename tree (h tree List.mem_cons_self)
  | tree :: rest, index + 1, h => by
    rw [List.map_cons, bodyAt, bodyAt]
    exact bodyAt_rename rest index fun other ho => h other (List.mem_cons_of_mem _ ho)

theorem elseAt?_rename : ∀ (trees : List Tree) (index : Nat), (∀ tree ∈ trees, tree.IsRead) →
    elseAt? (trees.map (Tree.rename r)) index = (elseAt? trees index).map (List.map (rename r))
  | [], _, _ => by rw [List.map_nil, elseAt?]; rfl
  | ⟨symbol, line, value, children⟩ :: rest, 0, h => by
    have hc : ∀ tree ∈ children, tree.IsRead := fun tree => (h _ List.mem_cons_self).child
    rw [List.map_cons, Tree.rename, Tree.renameForest_eq, elseAt?, elseAt?, List.length_map,
      bodyAt_rename children 2 hc]
    split <;> rfl
  | tree :: rest, index + 1, h => by
    rw [List.map_cons, elseAt?, elseAt?]
    exact elseAt?_rename rest index fun other ho => h other (List.mem_cons_of_mem _ ho)

end

end Statement
end FrontEnd
