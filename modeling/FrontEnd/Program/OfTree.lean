import FrontEnd.Program.Basic
import FrontEnd.Tree

/-! # Reading programs off parse trees

The trees are those of the normalized built-in grammar, with whatever recovery has left of them;
every tree has a reading.

* `Expr.ofTree?`: each level of precedence is an operand followed by tails. A tail starts with an
  operator or with a group that does; the operands are joined from left to right.
* `Guard.ofTree`: finds a lone comparison inside parentheses and empty tails.
* `Statement.listOfTree`: the statements of a `Program` node.
-/

namespace FrontEnd
set_option autoImplicit false

namespace Tree

def hasSymbol (tree : Tree) (symbol : String) : Bool := tree.symbol == symbol

/-- Whether the first child carries `symbol`. -/
def startsWith (tree : Tree) (symbol : String) : Bool :=
  (tree.child? 0).any (·.hasSymbol symbol)

/-- The value of the child at `index`. -/
def childValue? (tree : Tree) (index : Nat) : Option String :=
  (tree.child? index).bind (·.value)

/-- The operator that a leaf stands for; a relation is its own text. -/
def operator? (tree : Tree) : Option String :=
  match tree.symbol with
  | "OR" => some "||"
  | "AND" => some "&&"
  | "PLUS" => some "+"
  | "MINUS" => some "-"
  | "STAR" => some "*"
  | "DIV" => some "/"
  | "MOD" => some "%"
  | "RELOP" => tree.value
  | _ => none

end Tree

/-! ## Expressions -/

namespace Expr

/-- With one operand lost, the other stands for the whole. -/
def join (op : String) (line : Nat) : Option Expr → Option Expr → Option Expr
  | some left, some right => some (binary op line left right)
  | some left, none => some left
  | none, right => right

def ofLeaf? (symbol : String) (line : Nat) (value : Option String) : Option Expr :=
  match symbol, value with
  | "INT", some text => some (int text)
  | "FLOAT", some text => some (float text)
  | "ID", some text => some (name line text)
  | _, _ => none

mutual

def ofTree? : Tree → Option Expr
  | ⟨symbol, line, value, []⟩ => ofLeaf? symbol line value
  | ⟨_, _, _, first :: rest⟩ =>
    if first.hasSymbol "LP" then ofFirst? rest else joinTails (ofTree? first) rest

def ofFirst? : List Tree → Option Expr
  | [] => none
  | tree :: _ => ofTree? tree

def joinTails (left : Option Expr) : List Tree → Option Expr
  | [] => left
  | tail :: rest => joinTails (joinTail left tail) rest

def joinTail (left : Option Expr) : Tree → Option Expr
  | ⟨_, _, _, []⟩ => left
  | ⟨_, _, _, head :: rest⟩ =>
    match head.operator? with
    | some op => joinSecond (join op head.line left (ofFirst? rest)) rest
    | none =>
      match head with
      | ⟨_, _, _, []⟩ => left
      | ⟨_, _, _, leaf :: operand⟩ =>
        match leaf.operator? with
        | some op => joinFirst (join op leaf.line left (ofFirst? operand)) rest
        | none => left

def joinFirst (left : Option Expr) : List Tree → Option Expr
  | [] => left
  | tail :: _ => joinTail left tail

def joinSecond (left : Option Expr) : List Tree → Option Expr
  | [] => left
  | _ :: rest => joinFirst left rest

end

end Expr

namespace Guard

/-- The comparison that a tree consists of, if it is one. -/
def comparison? : Tree → Option Guard
  | ⟨_, _, _, [only]⟩ => if only.children.isEmpty then none else comparison? only
  | ⟨_, _, _, [left, tail]⟩ =>
    match tail.children with
    | [] => comparison? left
    | [relation, right] =>
      if relation.hasSymbol "RELOP" then
        relation.value.map fun op =>
          compare op relation.line (Expr.ofTree? left) (Expr.ofTree? right)
      else none
    | _ => none
  | ⟨_, _, _, [paren, inner, _]⟩ => if paren.hasSymbol "LP" then comparison? inner else none
  | _ => none

def ofTree (tree : Tree) : Guard :=
  (comparison? tree).getD (truth (Expr.ofTree? tree))

end Guard

/-! ## Declarations, assignments and structs -/

namespace Declaration

mutual

/-- The array suffixes of an `Init` node and the initializer after them. -/
def ofInit : Tree → List Suffix × Option (Option Expr)
  | ⟨symbol, line, value, children⟩ =>
    let init : Tree := ⟨symbol, line, value, children⟩
    if init.startsWith "LB" then
      let rest := ofInitAt children 3
      (⟨line, (init.childValue? 1).getD ""⟩ :: rest.1, rest.2)
    else if init.startsWith "ASSIGNOP" then ([], (init.child? 1).map Expr.ofTree?)
    else ([], none)

def ofInitAt : List Tree → Nat → List Suffix × Option (Option Expr)
  | [], _ => ([], none)
  | tree :: _, 0 => ofInit tree
  | _ :: rest, index + 1 => ofInitAt rest index

end

def ofTree? (tree : Tree) : Option Declaration := do
  let typeName ← tree.childValue? 0
  let name ← tree.childValue? 1
  let init := ofInitAt tree.children 2
  return ⟨tree.line, typeName, name, init.1, init.2⟩

end Declaration

namespace Assignment

def ofTree? (tree : Tree) : Option Assignment := do
  let name ← tree.childValue? 0
  let right :=
    match tree.child? 1 with
    | none => .value none
    | some init =>
      if init.startsWith "LB" then .suffix
      else if init.startsWith "ASSIGNOP" then .value ((init.child? 1).bind Expr.ofTree?)
      else .value none
  return ⟨tree.line, name, right⟩

/-- The step of a `for` statement. -/
def ofStep? (tree : Tree) : Option Assignment := do
  let target ← tree.child? 0
  let expression ← tree.child? 2
  let name ← target.value
  return ⟨target.line, name, .value (Expr.ofTree? expression)⟩

end Assignment

namespace StructDefinition

mutual

def fieldsOf : Tree → List Field
  | ⟨symbol, line, value, children⟩ =>
    let member : Tree := ⟨symbol, line, value, children⟩
    match member.childValue? 0, member.childValue? 1 with
    | some typeName, some name => ⟨line, typeName, name⟩ :: fieldsAt children 3
    | _, _ => []

def fieldsAt : List Tree → Nat → List Field
  | [], _ => []
  | tree :: _, 0 => fieldsOf tree
  | _ :: rest, index + 1 => fieldsAt rest index

end

def ofTree? (tree : Tree) : Option StructDefinition := do
  let name ← tree.childValue? 1
  return ⟨tree.line, name, fieldsAt tree.children 3⟩

end StructDefinition

/-! ## Statements -/

namespace Statement

/-- A declaration or an assignment. -/
def ofVariable? (tree : Tree) : Option Statement :=
  if tree.startsWith "TYPE" then (Declaration.ofTree? tree).map declare
  else if tree.startsWith "ID" then (Assignment.ofTree? tree).map assign
  else none

def initialOf (tree : Tree) : List Statement :=
  (((tree.child? 2).bind (·.child? 0)).bind ofVariable?).toList

mutual

/-- The statements of a `Program` node: those of its parts, then those of the last `Program` node
among them. -/
def listOfTree : Tree → List Statement
  | ⟨_, _, _, children⟩ => listOfParts children ++ listOfLast children

def listOfParts : List Tree → List Statement
  | [] => []
  | part :: rest =>
    (if part.hasSymbol "Program" then [] else ofTree part) ++ listOfParts rest

def listOfLast : List Tree → List Statement
  | [] => []
  | part :: rest =>
    if part.hasSymbol "Program" && !rest.any (·.hasSymbol "Program") then listOfTree part
    else listOfLast rest

/-- A statement whose condition was lost leaves only what stands before the condition. -/
def ofTree : Tree → List Statement
  | ⟨symbol, line, value, children⟩ =>
    let tree : Tree := ⟨symbol, line, value, children⟩
    match symbol with
    | "VariableDeclaration" => (ofVariable? tree).toList
    | "StructDeclaration" => ((StructDefinition.ofTree? tree).map define).toList
    | "IfStatement" =>
      match tree.child? 2 with
      | none => []
      | some condition =>
        match elseAt? children 7 with
        | some otherwise => [ifElse (.ofTree condition) (bodyAt children 5) otherwise]
        | none => [ifThen (.ofTree condition) (bodyAt children 5)]
    | "WhileStatement" =>
      match tree.child? 2 with
      | none => []
      | some condition => [loop (.ofTree condition) (bodyAt children 5) none]
    | "DoWhileStatement" => [doWhile (bodyAt children 2) ((tree.child? 6).map .ofTree)]
    | "ForStatement" =>
      match tree.child? 4 with
      | none => initialOf tree
      | some condition =>
        initialOf tree ++
          [loop (.ofTree condition) (bodyAt children 9) ((tree.child? 6).bind Assignment.ofStep?)]
    | _ => []

/-- The statements of the `Program` node at `index`, if there is a node. -/
def bodyAt : List Tree → Nat → List Statement
  | [], _ => []
  | tree :: _, 0 => listOfTree tree
  | _ :: rest, index + 1 => bodyAt rest index

/-- The body of the `ElsePart` node at `index`. -/
def elseAt? : List Tree → Nat → Option (List Statement)
  | [], _ => none
  | ⟨_, _, _, part⟩ :: _, 0 => if part.length ≤ 2 then none else some (bodyAt part 2)
  | _ :: rest, index + 1 => elseAt? rest index

end

end Statement
end FrontEnd
