/-! # Three-address code

* `Instruction`: copies, binary operations and jumps. A jump whose target is not known yet has
  none.
* `Instruction.quad`: the form `(op, arg1, arg2, result)`.
* `Code`: instructions on lines numbered from 1. It grows at the end, and `Code.patch` gives a jump
  its target; nothing else ever changes.
-/

namespace FrontEnd
set_option autoImplicit false

inductive Instruction where
  /-- The assignment `result = source`. -/
  | copy (source result : String)
  /-- The assignment `result = left op right`. -/
  | binary (op left right result : String)
  | jump (target : Option Nat)
  /-- Jumps if `left op right` is true. -/
  | jumpIf (op left right : String) (target : Option Nat)
  /-- Jumps if `condition` is true. -/
  | jumpNonZero (condition : String) (target : Option Nat)
deriving DecidableEq, Repr

structure Quad where
  op : String
  arg1 : String
  arg2 : String
  result : String
deriving DecidableEq, Repr

def Quad.text (quad : Quad) : String :=
  "(" ++ String.intercalate ", " [quad.op, quad.arg1, quad.arg2, quad.result] ++ ")"

/-- A missing target is shown as an underscore. -/
def targetText : Option Nat → String
  | some line => toString line
  | none => "_"

namespace Instruction

def target? : Instruction → Option Nat
  | jump target | jumpIf _ _ _ target | jumpNonZero _ target => target
  | copy .. | binary .. => none

/-- Gives a jump its target; other instructions stay as they are. -/
def patch (line : Nat) : Instruction → Instruction
  | jump _ => jump (some line)
  | jumpIf op left right _ => jumpIf op left right (some line)
  | jumpNonZero condition _ => jumpNonZero condition (some line)
  | copy source result => copy source result
  | binary op left right result => binary op left right result

def quad : Instruction → Quad
  | copy source result => ⟨"=", source, "", result⟩
  | binary op left right result => ⟨op, left, right, result⟩
  | jump target => ⟨"j", "", "", targetText target⟩
  | jumpIf op left right target => ⟨"j" ++ op, left, right, targetText target⟩
  | jumpNonZero condition target => ⟨"jnz", condition, "", targetText target⟩

def text : Instruction → String
  | copy source result => s!"{result} = {source}"
  | binary op left right result => s!"{result} = {left} {op} {right}"
  | jump target => s!"goto {targetText target}"
  | jumpIf op left right target => s!"if {left} {op} {right} goto {targetText target}"
  | jumpNonZero condition target => s!"if {condition} goto {targetText target}"

end Instruction

structure Code where
  instructions : Array Instruction

namespace Code

def empty : Code := ⟨#[]⟩

def size (code : Code) : Nat := code.instructions.size

/-- The line of the next instruction. -/
def nextLine (code : Code) : Nat := code.size + 1

def emit (code : Code) (instruction : Instruction) : Code :=
  ⟨code.instructions.push instruction⟩

def get? (code : Code) (line : Nat) : Option Instruction :=
  if line = 0 then none else code.instructions[line - 1]?

/-- Gives the jump on `line` its target; without such a line nothing changes. -/
def patch (code : Code) (line target : Nat) : Code :=
  if line = 0 then code else ⟨code.instructions.modify (line - 1) (Instruction.patch target)⟩

/-- The instructions with their lines. -/
def lines (code : Code) : List (Nat × Instruction) :=
  code.instructions.toList.zipIdx.map fun entry => (entry.2 + 1, entry.1)

def render (code : Code) : List String :=
  code.lines.map fun line =>
    toString line.1 ++ ": " ++ line.2.quad.text ++ "  " ++ line.2.text

end Code
end FrontEnd
