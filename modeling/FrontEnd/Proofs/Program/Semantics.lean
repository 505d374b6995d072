import FrontEnd.Lowering.Expr
import Std.Data.String.ToNat

/-! # What programs do

The values of literals, the operators and the truth test are left open. A store gives every name a
value; there is one flat store.

* `Interpretation`: what literals, operators and conditions mean.
* `Program`, `Exec`: structured programs and what they do to a store.
* `Statement.program`: the structured program of a statement.
* `Program.Every`: a property of all literals and names in a program.
* `Program.Proper`: names are neither literals nor names of temporaries.
* `Store.Agree`: stores that differ in temporaries only.
-/

namespace FrontEnd
set_option autoImplicit false

/-! ## Values and stores -/

structure Interpretation (V : Type) where
  literal : String → V
  apply : String → V → V → V
  isTrue : V → Bool

abbrev Store (V : Type) := String → V

namespace Store
variable {V : Type}

def set (σ : Store V) (name : String) (value : V) : Store V :=
  fun other => if other = name then value else σ other

theorem set_self (σ : Store V) (name : String) (value : V) : σ.set name value name = value :=
  if_pos rfl

theorem set_of_ne (σ : Store V) {name other : String} (h : other ≠ name) (value : V) :
    σ.set name value other = σ other :=
  if_neg h

end Store

/-- A `t` and one or more decimal digits. -/
def isTemporaryName (name : String) : Bool :=
  match name.toList with
  | 't' :: digits => !digits.isEmpty && digits.all Char.isDigit
  | _ => false

theorem isTemporaryName_temporary (number : Nat) :
    isTemporaryName (Lowering.temporary number) = true := by
  have h : (Lowering.temporary number).toList = 't' :: Nat.toDigits 10 number := by
    simp [Lowering.temporary, String.toList_append]
  have hd : ∀ c ∈ Nat.toDigits 10 number, c.isDigit = true := fun c hc =>
    Nat.isDigit_of_mem_toDigits (by decide) (by decide) hc
  rw [isTemporaryName, h]
  simpa using hd

theorem temporary_inj {m n : Nat} (h : Lowering.temporary m = Lowering.temporary n) : m = n := by
  have hl := congrArg String.toList h
  rw [Lowering.temporary, Lowering.temporary, String.toList_append, String.toList_append,
    List.append_cancel_left_eq] at hl
  exact Nat.repr_injective (String.toList_inj.1 hl)

/-- The stores agree on everything but temporaries. -/
def Store.Agree {V : Type} (σ τ : Store V) : Prop :=
  ∀ name, isTemporaryName name = false → σ name = τ name

namespace Store
variable {V : Type} {σ τ : Store V}

theorem Agree.refl (σ : Store V) : σ.Agree σ := fun _ _ => rfl

theorem Agree.set (h : σ.Agree τ) (name : String) (value : V) :
    (σ.set name value).Agree (τ.set name value) := by
  intro other ho
  by_cases he : other = name
  · rw [he, set_self, set_self]
  · rw [set_of_ne σ he, set_of_ne τ he]
    exact h other ho

end Store

/-! ## Expressions -/

namespace Expr
variable {V : Type}

/-- Both operands of an operator are always evaluated. -/
def eval (M : Interpretation V) (σ : Store V) : Expr → V
  | int text | float text => M.literal text
  | name _ text => σ text
  | binary op _ left right => M.apply op (left.eval M σ) (right.eval M σ)

end Expr

/-- The expression that a guard tests; what was lost is zero. -/
def Guard.condition : Guard → Expr
  | compare op line left right =>
    .binary op line (left.getD (.int "0")) (right.getD (.int "0"))
  | truth value => value.getD (.int "0")

/-! ## Structured programs -/

inductive Program where
  | skip
  | store (name : String) (value : Expr)
  | seq (first second : Program)
  | branch (condition : Expr) (yes no : Program)
  | while (condition : Expr) (body : Program)
  | doWhile (body : Program) (condition : Expr)
deriving DecidableEq, Repr

/-- The program ends, and `σ` becomes `τ`. -/
inductive Exec {V : Type} (M : Interpretation V) : Program → Store V → Store V → Prop
  | skip (σ : Store V) : Exec M .skip σ σ
  | store (name : String) (value : Expr) (σ : Store V) :
      Exec M (.store name value) σ (σ.set name (value.eval M σ))
  | seq {first second : Program} {σ ρ τ : Store V} (h : Exec M first σ ρ)
      (h' : Exec M second ρ τ) : Exec M (.seq first second) σ τ
  | yes {condition : Expr} {yes no : Program} {σ τ : Store V}
      (hc : M.isTrue (condition.eval M σ) = true) (h : Exec M yes σ τ) :
      Exec M (.branch condition yes no) σ τ
  | no {condition : Expr} {yes no : Program} {σ τ : Store V}
      (hc : M.isTrue (condition.eval M σ) = false) (h : Exec M no σ τ) :
      Exec M (.branch condition yes no) σ τ
  | enter {condition : Expr} {body : Program} {σ ρ τ : Store V}
      (hc : M.isTrue (condition.eval M σ) = true) (h : Exec M body σ ρ)
      (h' : Exec M (.while condition body) ρ τ) : Exec M (.while condition body) σ τ
  | leave {condition : Expr} {body : Program} {σ : Store V}
      (hc : M.isTrue (condition.eval M σ) = false) : Exec M (.while condition body) σ σ
  | again {body : Program} {condition : Expr} {σ ρ τ : Store V} (h : Exec M body σ ρ)
      (hc : M.isTrue (condition.eval M ρ) = true) (h' : Exec M (.doWhile body condition) ρ τ) :
      Exec M (.doWhile body condition) σ τ
  | once {body : Program} {condition : Expr} {σ ρ : Store V} (h : Exec M body σ ρ)
      (hc : M.isTrue (condition.eval M ρ) = false) : Exec M (.doWhile body condition) σ ρ

/-! ## Statements -/

namespace Assignment

def program (assignment : Assignment) : Program :=
  match assignment.right with
  | .value (some value) => .store assignment.name value
  | _ => .skip

end Assignment

/-- Only the initializer of a scalar does anything. -/
def Declaration.program (declaration : Declaration) : Program :=
  match declaration.suffixes, declaration.initializer with
  | [], some (some value) => .store declaration.name value
  | _, _ => .skip

namespace Statement

mutual

def program : Statement → Program
  | declare declaration => declaration.program
  | assign assignment => assignment.program
  | define _ => .skip
  | ifThen guard body => .branch guard.condition (programs body) .skip
  | ifElse guard body otherwise =>
    .branch guard.condition (programs body) (programs otherwise)
  | loop guard body step =>
    .while guard.condition ((step.map Assignment.program).toList.foldl .seq (programs body))
  | doWhile body guard =>
    match guard with
    | some guard => .doWhile (programs body) guard.condition
    | none => programs body

def programs : List Statement → Program
  | [] => .skip
  | statement :: rest => .seq statement.program (programs rest)

end

end Statement

/-! ## Names and literals -/

/-- Whether the text is a literal; these start with a digit or a point. -/
def isLiteral (text : String) : Bool := text.toList.head?.any fun c => c.isDigit || c == '.'

/-- A name is neither a literal nor the name of a temporary. -/
def IsName (text : String) : Prop := isLiteral text = false ∧ isTemporaryName text = false

theorem isLiteral_temporary (number : Nat) : isLiteral (Lowering.temporary number) = false := by
  simp [isLiteral, Lowering.temporary, String.toList_append]

theorem isTemporaryName_of_isLiteral {text : String} (h : isLiteral text = true) :
    isTemporaryName text = false := by
  unfold isLiteral at h
  unfold isTemporaryName
  split
  · rename_i digits hd
    rw [hd] at h
    exact absurd h (by simp)
  · rfl

/-- All literals and names in the expression have the property, which is given the symbols that
stand for them and their texts. -/
def Expr.Every (P : String → String → Prop) : Expr → Prop
  | int text => P "INT" text
  | float text => P "FLOAT" text
  | name _ text => P "ID" text
  | binary _ _ left right => left.Every P ∧ right.Every P

/-- Literals and names are what they seem to be. -/
def Expr.Proper : Expr → Prop
  | int text | float text => isLiteral text = true
  | name _ text => IsName text
  | binary _ _ left right => left.Proper ∧ right.Proper

namespace Program

/-- The same for the expressions of a program and the names that it stores into. -/
def Every (P : String → String → Prop) : Program → Prop
  | skip => True
  | store name value => P "ID" name ∧ value.Every P
  | seq first second => first.Every P ∧ second.Every P
  | branch condition yes no => condition.Every P ∧ yes.Every P ∧ no.Every P
  | .while condition body => condition.Every P ∧ body.Every P
  | doWhile body condition => body.Every P ∧ condition.Every P

def Proper : Program → Prop
  | skip => True
  | store name value => IsName name ∧ value.Proper
  | seq first second => first.Proper ∧ second.Proper
  | branch condition yes no => condition.Proper ∧ yes.Proper ∧ no.Proper
  | .while condition body => condition.Proper ∧ body.Proper
  | doWhile body condition => body.Proper ∧ condition.Proper

end Program

/-- Programs do not know temporaries. -/
theorem Exec.eq_of_isTemporaryName {V : Type} {M : Interpretation V} {c : Program}
    {σ τ : Store V} (h : Exec M c σ τ) (hc : c.Proper) {name : String}
    (hn : isTemporaryName name = true) : τ name = σ name := by
  induction h with
  | skip σ => rfl
  | store target value σ =>
    refine Store.set_of_ne σ ?_ _
    rintro rfl
    rw [hc.1.2] at hn
    exact absurd hn (by simp)
  | seq _ _ ih ih' => rw [ih' hc.2, ih hc.1]
  | yes _ _ ih => exact ih hc.2.1
  | no _ _ ih => exact ih hc.2.2
  | enter _ _ _ ih ih' => rw [ih' hc, ih hc.2]
  | leave _ => rfl
  | again _ _ _ ih ih' => rw [ih' hc, ih hc.1]
  | once _ _ ih => exact ih hc.1

end FrontEnd
