import FrontEnd.Grammar.Rule

/-! # Removing direct left recursion

The rules of a left-recursive symbol `A` become right-recursive, with a fresh name `A'`:
`A -> β` becomes `A -> β A'`, `A -> A α` becomes `A' -> α A'`, and `A' -> ε` is added.

* `rightRecursive`: the rules that take the place of those of one symbol.
* `removeLeftRecursion`: all left-recursive symbols are replaced, each where its first rule stood;
  the rules of the others stay as they are.
-/

namespace FrontEnd
set_option autoImplicit false

/-! ## One symbol -/

/-- The rule `A -> β A'` for a rule `A -> β` that is not left-recursive. -/
def Rule.withTail (tail : Symbol) (rule : Rule) : Rule :=
  ⟨rule.left, rule.right.filter (· != epsilon) ++ [tail]⟩

/-- The rule `A' -> α A'` for a rule `A -> A α`; there is none when `α` is empty, as such a rule
derives nothing new. -/
def Rule.toTail? (tail : Symbol) (rule : Rule) : Option Rule :=
  if rule.right.tail.all (· == epsilon) then none
  else some ⟨tail, rule.right.tail ++ [tail]⟩

/-- The rules of `tail`'s symbol, `members`, made right-recursive. -/
def rightRecursive (members : List Rule) (tail : Symbol) : List Rule :=
  (members.filter fun rule => !rule.isLeftRecursive).map (Rule.withTail tail) ++
    (members.filter Rule.isLeftRecursive).filterMap (Rule.toTail? tail) ++ [⟨tail, [epsilon]⟩]

/-! ## All symbols -/

/-- Goes on with the rules `rest` of `all`, after `seen` and with `out` written. -/
def removeLeftRecursionFrom (all seen out : List Rule) : List Rule → List Rule
  | [] => out
  | rule :: rest =>
    let members := all.filter (·.left == rule.left)
    let written :=
      if !members.any Rule.isLeftRecursive then out ++ [rule]
      else if seen.any (·.left == rule.left) then out
      else
        let tail := freshName (symbolsOf all ++ symbolsOf out) (rule.left.push '\x27')
        out ++ rightRecursive members tail
    removeLeftRecursionFrom all (rule :: seen) written rest

def removeLeftRecursion (rules : List Rule) : List Rule :=
  removeLeftRecursionFrom rules [] [] rules

end FrontEnd
