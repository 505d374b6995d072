import FrontEnd.Grammar.Rule

/-! # Rules that share their start

Two rules share their start when they have the same left side and the same first symbol.

* `firstShared?`: the first rule that shares its start with a later one, and what stands around it.
  The symbol `ε` is never shared.
* `Shared.factor`: the merge `A -> x α | x β` to `A -> x N`, `N -> α | β`.
-/

namespace FrontEnd
set_option autoImplicit false

def Rule.startsWith (left head : Symbol) (rule : Rule) : Bool :=
  rule.left == left && rule.right.head? == some head

/-- A rule `left -> head rest` with the rules before it, none of which shares its start, and those
after it, some of which do. -/
structure Shared where
  before : List Rule
  left : Symbol
  head : Symbol
  rest : List Symbol
  after : List Rule

def firstShared? : List Rule → Option Shared
  | [] => none
  | ⟨left, []⟩ :: rules =>
    (firstShared? rules).map fun s => { s with before := ⟨left, []⟩ :: s.before }
  | ⟨left, head :: rest⟩ :: rules =>
    if head != epsilon && rules.any (Rule.startsWith left head) then
      some ⟨[], left, head, rest, rules⟩
    else
      (firstShared? rules).map fun s => { s with before := ⟨left, head :: rest⟩ :: s.before }

/-- An empty rest is written `ε`. -/
def orEpsilon (rest : List Symbol) : List Symbol :=
  if rest.isEmpty then [epsilon] else rest

namespace Shared

/-- What follows the shared start, in the order of the rules. -/
def rests (s : Shared) : List (List Symbol) :=
  s.rest :: (s.after.filter (Rule.startsWith s.left s.head)).map (·.right.tail)

/-- The merged rules stand where the first of them stood. -/
def factor (s : Shared) (name : Symbol) : List Rule :=
  s.before ++ ⟨s.left, [s.head, name]⟩ ::
    ((s.rests.map orEpsilon).eraseDups.map fun rest => ⟨name, rest⟩) ++
    s.after.filter fun rule => !rule.startsWith s.left s.head

end Shared

end FrontEnd
