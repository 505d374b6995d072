/-! # Programs

What a parse tree says, without the grammar's shape. Error recovery leaves holes in trees; where an
expression may be lost its place holds an `Option Expr`.
-/

namespace FrontEnd
set_option autoImplicit false

inductive Expr where
  | int (text : String)
  | float (text : String)
  | name (line : Nat) (text : String)
  /-- The line is that of the operator. -/
  | binary (op : String) (line : Nat) (left right : Expr)
deriving DecidableEq, Repr

/-- A condition that guards a jump. -/
inductive Guard where
  /-- A single comparison. -/
  | compare (op : String) (line : Nat) (left right : Option Expr)
  /-- A value that must not be zero. -/
  | truth (value : Option Expr)
deriving DecidableEq, Repr

/-- One `[n]` after a declared name. -/
structure Suffix where
  line : Nat
  literal : String
deriving DecidableEq, Repr

structure Declaration where
  line : Nat
  typeName : String
  name : String
  suffixes : List Suffix
  /-- An initializer whose expression was lost is `some none`. -/
  initializer : Option (Option Expr)
deriving DecidableEq, Repr

inductive Assigned where
  /-- An array suffix stands where a value should. -/
  | suffix
  | value (value : Option Expr)
deriving DecidableEq, Repr

structure Assignment where
  line : Nat
  name : String
  right : Assigned
deriving DecidableEq, Repr

structure Field where
  line : Nat
  typeName : String
  name : String
deriving DecidableEq, Repr

structure StructDefinition where
  line : Nat
  name : String
  fields : List Field
deriving DecidableEq, Repr

/-- A `for` statement is its initializer, a statement of its own, followed by a loop with a
step. -/
inductive Statement where
  | declare (declaration : Declaration)
  | assign (assignment : Assignment)
  | define (definition : StructDefinition)
  | ifThen (guard : Guard) (body : List Statement)
  | ifElse (guard : Guard) (body otherwise : List Statement)
  | loop (guard : Guard) (body : List Statement) (step : Option Assignment)
  | doWhile (body : List Statement) (guard : Option Guard)

end FrontEnd
