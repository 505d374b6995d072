import FrontEnd.Grammar.LeftFactoring
import FrontEnd.Grammar.LeftRecursion
import FrontEnd.Grammar.Text
import Std.Data.TreeSet

/-! # Grammars

A grammar is a list of rules with at least one rule; the left side of the first is the start
symbol.

* `Grammar.ofRules`, `Grammar.ofText`: refuse an empty list.
* `Grammar.nonterminals`: the left sides, in the order of their first rules.
* `Grammar.terminals`: the other symbols of the right sides, `ε` left out.
* `Grammar.leftFactored`, `Grammar.withoutLeftRecursion`, `Grammar.normalized`: grammars
  for the same language that are fitter for prediction.
-/

namespace FrontEnd
set_option autoImplicit false

abbrev SymbolSet := Std.TreeSet Symbol

structure Grammar where
  rules : List Rule
  nonempty : rules ≠ []
deriving DecidableEq

inductive GrammarError where
  | empty
deriving DecidableEq, Repr

def GrammarError.text : GrammarError → String
  | empty => "grammar has no productions"

namespace Grammar

def ofRules (rules : List Rule) : Except GrammarError Grammar :=
  if h : rules = [] then .error .empty else .ok ⟨rules, h⟩

def ofText (text : String) : Except GrammarError Grammar := ofRules (readRules text)

def text (g : Grammar) : String := rulesText g.rules

def start (g : Grammar) : Symbol := (g.rules.head g.nonempty).left

def nonterminals (g : Grammar) : List Symbol := (g.rules.map (·.left)).eraseDups

def isNonterminal (g : Grammar) (symbol : Symbol) : Bool :=
  g.rules.any (·.left == symbol)

def isTerminal (g : Grammar) (symbol : Symbol) : Bool :=
  symbol != epsilon && !g.isNonterminal symbol

def terminals (g : Grammar) : SymbolSet :=
  .ofList ((g.rules.flatMap (·.right)).filter g.isTerminal)

/-- The rules of a symbol with their indices. -/
def rulesFor (g : Grammar) (symbol : Symbol) : List (Rule × Nat) :=
  g.rules.zipIdx.filter (·.1.left == symbol)

/-- The symbols that rule `index` puts in place of its left side. -/
def production (g : Grammar) (index : Nat) : List Symbol :=
  match g.rules[index]? with
  | some rule => rule.production
  | none => []

end Grammar

/-! ## No transformation loses all rules -/

theorem Shared.factor_ne_nil (s : Shared) (name : Symbol) : s.factor name ≠ [] := by
  simp [Shared.factor]

theorem leftFactor_ne_nil {rules : List Rule} (h : rules ≠ []) : leftFactor rules ≠ [] := by
  fun_induction leftFactor rules with
  | case1 => exact h
  | case2 rules s found _ ih => exact ih (Shared.factor_ne_nil _ _)

theorem removeLeftRecursionFrom_ne_nil (all seen out rest : List Rule) (h : out ≠ []) :
    removeLeftRecursionFrom all seen out rest ≠ [] := by
  induction rest generalizing seen out with
  | nil => exact h
  | cons rule rest ih =>
    apply ih
    split
    · simp
    · split
      · exact h
      · simp [h]

theorem removeLeftRecursion_ne_nil {rules : List Rule} (h : rules ≠ []) :
    removeLeftRecursion rules ≠ [] := by
  match rules, h with
  | rule :: rest, _ =>
    rw [removeLeftRecursion, removeLeftRecursionFrom]
    apply removeLeftRecursionFrom_ne_nil
    split <;> simp [rightRecursive]

namespace Grammar

def leftFactored (g : Grammar) : Grammar :=
  ⟨leftFactor g.rules, leftFactor_ne_nil g.nonempty⟩

def withoutLeftRecursion (g : Grammar) : Grammar :=
  ⟨removeLeftRecursion g.rules, removeLeftRecursion_ne_nil g.nonempty⟩

def normalized (g : Grammar) : Grammar := g.leftFactored.withoutLeftRecursion

end Grammar
end FrontEnd
