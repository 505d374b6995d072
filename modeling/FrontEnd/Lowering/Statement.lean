import FrontEnd.Lowering.Expr
import FrontEnd.Program.Literal

/-! # Code for statements

A guard jumps when it holds. A forward target is not known while the code in between is made, so
the jump is emitted without one and patched afterwards.

* `Declaration.lower`, `Assignment.lower`, `StructDefinition.lower`: names and stores.
* `Statement.lower`, `Statement.lowerList`: control flow.
-/

namespace FrontEnd
set_option autoImplicit false

/-! ## Names and stores -/

/-- Stores the value of an expression, if it is there. -/
def Lowering.store (s : Lowering) (name : String) : Option Expr → Lowering
  | none => s
  | some value =>
    let (place, s) := value.lowerValue s
    s.emit (.copy place name)

def Assignment.lower (assignment : Assignment) (s : Lowering) : Lowering :=
  if s.symbols.contains assignment.name then
    match assignment.right with
    | .suffix => s.addError assignment.line (.suffixedTarget assignment.name)
    | .value value => s.store assignment.name value
  else s.addError assignment.line (.undeclared assignment.name)

/-- The sizes of array suffixes; one that cannot be read is zero. -/
def Suffix.sizes (suffixes : List Suffix) : List Nat :=
  suffixes.map fun suffix => (literalValue? suffix.literal).getD 0

/-- Complains about the sizes that cannot be read. -/
def Suffix.errors (name : String) (suffixes : List Suffix) : List SemanticError :=
  (suffixes.filter fun suffix => (literalValue? suffix.literal).isNone).map fun suffix =>
    ⟨suffix.line, .invalidSize suffix.literal name⟩

def Declaration.type (declaration : Declaration) : Ty :=
  .arrayOf (.primitive declaration.typeName) (Suffix.sizes declaration.suffixes)

def Declaration.lower (declaration : Declaration) (s : Lowering) : Lowering :=
  match s.symbols.insert? declaration.name declaration.type with
  | none => s.addError declaration.line (.redeclaration declaration.name)
  | some symbols =>
    let s :=
      { s with
        symbols
        errors := s.errors ++ Suffix.errors declaration.name declaration.suffixes }
    match declaration.initializer with
    | none => s
    | some value =>
      if declaration.type.isArray then
        s.addError declaration.line (.initializedArray declaration.name)
      else s.store declaration.name value

/-- The fields with new names, and complaints about the others; `taken` holds the fields so far. -/
def StructDefinition.members (definition : String) :
    List (String × Ty) → List Field → List (String × Ty) × List SemanticError
  | taken, [] => (taken, [])
  | taken, field :: fields =>
    if taken.any (·.1 == field.name) then
      let (all, errors) := members definition taken fields
      (all, ⟨field.line, .duplicateField field.name definition⟩ :: errors)
    else members definition (taken ++ [(field.name, .primitive field.typeName)]) fields

def StructDefinition.lower (definition : StructDefinition) (s : Lowering) : Lowering :=
  let (fields, errors) := members definition.name [] definition.fields
  let s := { s with errors := s.errors ++ errors }
  match s.symbols.insert? definition.name (.record fields) with
  | none => s.addError definition.line (.redeclaration definition.name)
  | some symbols => { s with symbols }

/-! ## Control flow -/

namespace Statement

mutual

def lower : Statement → Lowering → Lowering
  | declare declaration, s => declaration.lower s
  | assign assignment, s => assignment.lower s
  | define definition, s => definition.lower s
  | ifThen guard body, s =>
    let (test, s) := guard.lower s
    let (skip, s) := s.emitJump (.jump none)
    let s := lowerList body (s.patch test (skip + 1))
    s.patch skip s.nextLine
  | ifElse guard body otherwise, s =>
    let (test, s) := guard.lower s
    let (skip, s) := s.emitJump (.jump none)
    let s := lowerList body (s.patch test (skip + 1))
    let (leave, s) := s.emitJump (.jump none)
    let s := lowerList otherwise (s.patch skip s.nextLine)
    s.patch leave s.nextLine
  | loop guard body step, s =>
    let start := s.nextLine
    let (test, s) := guard.lower s
    let (leave, s) := s.emitJump (.jump none)
    let s := lowerList body (s.patch test (leave + 1))
    let s :=
      match step with
      | some assignment => assignment.lower s
      | none => s
    let s := s.emit (.jump (some start))
    s.patch leave s.nextLine
  | doWhile body guard, s =>
    let start := s.nextLine
    let s := lowerList body s
    match guard with
    | none => s
    | some guard =>
      let (test, s) := guard.lower s
      s.patch test start

def lowerList : List Statement → Lowering → Lowering
  | [], s => s
  | statement :: rest, s => lowerList rest (statement.lower s)

end

end Statement

/-- The symbols, the code and the complaints of a whole program. -/
def analyze (program : List Statement) : Lowering := Statement.lowerList program .initial

end FrontEnd
