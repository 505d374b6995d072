import FrontEnd.Code
import FrontEnd.Lowering.Fault
import FrontEnd.Program.Basic
import FrontEnd.SymbolTable

/-! # Code for expressions

Lowering passes a state along: the symbols and the code so far, the complaints, and the number of
the next temporary.

* `Expr.lower`: code for an expression and the operand that holds its value. Operations go into
  temporaries `t1`, `t2`, …; names and literals stand for themselves.
* `Expr.lowerValue`: the same, with a bare name or literal copied into a temporary.
* `Guard.lower`: a jump, without a target yet, that is taken when the guard holds, and its line.
-/

namespace FrontEnd
set_option autoImplicit false

structure Operand where
  place : String
  /-- An undeclared name has no type. -/
  type : Option Ty
  /-- Whether an instruction was emitted for it. -/
  computed : Bool
deriving DecidableEq

structure Lowering where
  symbols : SymbolTable
  code : Code
  errors : List SemanticError
  nextTemporary : Nat

namespace Lowering

def initial : Lowering := ⟨.empty, .empty, [], 1⟩

def addError (s : Lowering) (line : Nat) (fault : SemanticFault) : Lowering :=
  { s with errors := s.errors ++ [⟨line, fault⟩] }

def emit (s : Lowering) (instruction : Instruction) : Lowering :=
  { s with code := s.code.emit instruction }

def patch (s : Lowering) (line target : Nat) : Lowering :=
  { s with code := s.code.patch line target }

/-- The line of the next instruction. -/
def nextLine (s : Lowering) : Nat := s.code.nextLine

/-- The name of the temporary with this number. -/
def temporary (number : Nat) : String := "t" ++ toString number

/-- Emits a jump and gives its line. -/
def emitJump (s : Lowering) (jump : Instruction) : Nat × Lowering := (s.nextLine, s.emit jump)

/-- Emits the instruction that fills the next temporary. -/
def emitFresh (s : Lowering) (instruction : String → Instruction) : String × Lowering :=
  let name := temporary s.nextTemporary
  (name, { s.emit (instruction name) with nextTemporary := s.nextTemporary + 1 })

/-- Two known types must be the same. -/
def checkTypes (s : Lowering) (line : Nat) (left right : Operand) : Lowering :=
  match left.type, right.type with
  | some a, some b => if a = b then s else s.addError line (.typeMismatch a b)
  | _, _ => s

end Lowering

def isRelation (op : String) : Bool := ["<", "<=", ">", ">=", "==", "!="].contains op

/-- Truth values are of type `int`; other operations have the type of their operands. -/
def resultType (op : String) (left right : Operand) : Option Ty :=
  if isRelation op || op == "&&" || op == "||" then some .int else left.type.or right.type

namespace Expr

def lower : Expr → Lowering → Operand × Lowering
  | int text, s => (⟨text, some .int, false⟩, s)
  | float text, s => (⟨text, some .float, false⟩, s)
  | name line text, s =>
    match s.symbols.get? text with
    | some type => (⟨text, some type, false⟩, s)
    | none => (⟨text, none, false⟩, s.addError line (.undeclared text))
  | binary op line left right, s =>
    let (a, s) := left.lower s
    let (b, s) := right.lower s
    let (place, s) := (s.checkTypes line a b).emitFresh (.binary op a.place b.place)
    (⟨place, resultType op a b, true⟩, s)

def lowerValue (expression : Expr) (s : Lowering) : String × Lowering :=
  let (operand, s) := expression.lower s
  if operand.computed then (operand.place, s) else s.emitFresh (.copy operand.place)

end Expr

/-- Lowers an operand, if it is there. -/
def lowerOperand : Option Expr → Lowering → Option Operand × Lowering
  | some expression, s =>
    let (operand, s) := expression.lower s
    (some operand, s)
  | none, s => (none, s)

/-- A lost operand reads as zero. -/
def placeOrZero (operand : Option Operand) : String := (operand.map (·.place)).getD "0"

def Guard.lower : Guard → Lowering → Nat × Lowering
  | compare op line left right, s =>
    let (a, s) := lowerOperand left s
    let (b, s) := lowerOperand right s
    let s :=
      match a, b with
      | some a, some b => s.checkTypes line a b
      | _, _ => s
    s.emitJump (.jumpIf op (placeOrZero a) (placeOrZero b) none)
  | truth none, s => s.emitJump (.jumpNonZero "0" none)
  | truth (some value), s =>
    let (place, s) := value.lowerValue s
    s.emitJump (.jumpNonZero place none)

end FrontEnd
