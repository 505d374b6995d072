import FrontEnd.Total

/-! # Rules

A rule replaces one symbol, its left side, by a sequence of symbols, its right side.

* `epsilon` stands for the empty text wherever it occurs, `endMarker` for the end of the input.
* `Rule.isEpsilon`: nothing but `epsilon` stands on the right.
* `Rule.isLeftRecursive`: the right side starts with the left side.
* `freshName`: a name that is not taken.
-/

namespace FrontEnd
set_option autoImplicit false

abbrev Symbol := String

def epsilon : Symbol := "ε"

def endMarker : Symbol := "$"

structure Rule where
  left : Symbol
  right : List Symbol
deriving DecidableEq, Repr

namespace Rule

def isEpsilon (rule : Rule) : Bool := rule.right.all (· == epsilon)

def isLeftRecursive (rule : Rule) : Bool := rule.right.head? == some rule.left

/-- The symbols that expanding the rule puts in place of its left side. -/
def production (rule : Rule) : List Symbol := if rule.isEpsilon then [] else rule.right

def symbols (rule : Rule) : List Symbol := rule.left :: rule.right

def text (rule : Rule) : String :=
  rule.left ++ " -> " ++ String.intercalate " " rule.right

end Rule

def symbolsOf (rules : List Rule) : List Symbol := rules.flatMap Rule.symbols

theorem mem_symbolsOf {rules : List Rule} {symbol : Symbol} :
    symbol ∈ symbolsOf rules ↔ ∃ rule ∈ rules, symbol = rule.left ∨ symbol ∈ rule.right := by
  simp only [symbolsOf, Rule.symbols, List.mem_flatMap, List.mem_cons]

theorem left_mem_symbolsOf {rules : List Rule} {rule : Rule} (hr : rule ∈ rules) :
    rule.left ∈ symbolsOf rules :=
  mem_symbolsOf.2 ⟨rule, hr, Or.inl rfl⟩

theorem mem_symbolsOf_of_mem_right {rules : List Rule} {rule : Rule} (hr : rule ∈ rules)
    {symbol : Symbol} (hs : symbol ∈ rule.right) : symbol ∈ symbolsOf rules :=
  mem_symbolsOf.2 ⟨rule, hr, Or.inr hs⟩

/-! ## Fresh names -/

/-- The name itself or, if it is taken, the name with the fewest primes after it that is not. -/
def freshName (taken : List Symbol) (name : Symbol) : Symbol :=
  if name ∈ taken then freshName taken (name.push '\x27') else name
termination_by total String.length taken + 1 - name.length
decreasing_by
  rename_i h
  have := le_total_of_mem String.length h
  rw [String.length_push]
  omega

theorem freshName_not_mem (taken : List Symbol) (name : Symbol) :
    freshName taken name ∉ taken := by
  fun_induction freshName taken name with
  | case1 name h ih => exact ih
  | case2 name h => exact h

/-- Symbols of one character, such as `ε` and the end marker, are no primed names. -/
theorem push_ne {symbol : Symbol} {c : Char} (hs : symbol.toList = [c]) (hc : c ≠ '\x27')
    (name : Symbol) : name.push '\x27' ≠ symbol := by
  rintro rfl
  rw [String.toList_push, List.append_eq_singleton_iff] at hs
  rcases hs with ⟨-, h⟩ | ⟨-, h⟩
  · exact hc (List.singleton_inj.1 h).symm
  · exact absurd h (by simp)

/-- They are never fresh, unless one of them is the wish and is free. -/
theorem freshName_ne {taken : List Symbol} {name symbol : Symbol} {c : Char}
    (hs : symbol.toList = [c]) (hc : c ≠ '\x27') (h : name = symbol → name ∈ taken) :
    freshName taken name ≠ symbol := by
  fun_induction freshName taken name with
  | case1 name _ ih => exact ih fun he => absurd he (push_ne hs hc name)
  | case2 name hn => exact fun he => hn (h he)

end FrontEnd
