import FrontEnd.Diagnostic
import FrontEnd.Ty

/-! # Semantic faults

What can be wrong with a program that has a parse tree, and the words for it.
-/

namespace FrontEnd
set_option autoImplicit false

inductive SemanticFault where
  | redeclaration (name : String)
  | undeclared (name : String)
  /-- An array suffix on the left of an assignment. -/
  | suffixedTarget (name : String)
  | initializedArray (name : String)
  | invalidSize (literal name : String)
  | duplicateField (field definition : String)
  | typeMismatch (left right : Ty)
deriving DecidableEq, Repr

namespace SemanticFault

def message : SemanticFault → String
  | redeclaration name => s!"redeclaration of '{name}'"
  | undeclared name => s!"undeclared identifier '{name}'"
  | suffixedTarget name => s!"array suffix is not allowed when assigning to '{name}'"
  | initializedArray name => s!"array '{name}' cannot be initialized with a scalar"
  | invalidSize literal name => s!"invalid array size '{literal}' for '{name}'"
  | duplicateField field definition => s!"duplicate field '{field}' in struct '{definition}'"
  | typeMismatch left right => s!"type mismatch: {left.text} vs {right.text}"

end SemanticFault

structure SemanticError where
  line : Nat
  fault : SemanticFault
deriving DecidableEq, Repr

def SemanticError.report (error : SemanticError) : Diagnostic :=
  .semantic error.line error.fault.message

end FrontEnd
