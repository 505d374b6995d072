import FrontEnd.Grammar.Basic
import Std.Data.TreeMap

/-! # FIRST, FOLLOW and SELECT

* `Grammar.firstOf`: the terminals that a sequence of symbols can start with, and `ε` if it can
  vanish.
* `Grammar.firstBefore`: the terminals that can come next where a sequence stands before a known
  set.
* `Sets.ofGrammar`: FIRST and FOLLOW of every nonterminal, as the least sets closed under a pass
  over the rules, and SELECT of every rule.
* `settle`: repeats a pass as long as it fills in something that was missing.
-/

namespace FrontEnd
set_option autoImplicit false

abbrev SetMap := Std.TreeMap Symbol SymbolSet

namespace SetMap

/-- A symbol without an entry has the empty set. -/
def lookup (sets : SetMap) (symbol : Symbol) : SymbolSet := sets.getD symbol ∅

def add (sets : SetMap) (symbol : Symbol) (more : SymbolSet) : SetMap :=
  sets.insert symbol (sets.lookup symbol ∪ more)

def empty (symbols : List Symbol) : SetMap := .ofList (symbols.map fun symbol => (symbol, ∅))

/-- How many of the `candidates` the sets of `symbols` lack, in all. -/
def missing (symbols candidates : List Symbol) (sets : SetMap) : Nat :=
  total (fun symbol => candidates.countP fun t => !(sets.lookup symbol).contains t) symbols

end SetMap

/-- Repeats `step` until it no longer lowers `missing`. -/
def settle {α : Type} (missing : α → Nat) (step : α → α) (a : α) : α :=
  if missing (step a) < missing a then settle missing step (step a) else step a
termination_by missing a

namespace Grammar

/-! ## FIRST -/

/-- An occurrence of `ε` is skipped, and a terminal ends the search. -/
def firstOf (g : Grammar) (first : SetMap) : List Symbol → SymbolSet
  | [] => {epsilon}
  | symbol :: rest =>
    if symbol == epsilon then g.firstOf first rest
    else if g.isNonterminal symbol then
      let set := first.lookup symbol
      if set.contains epsilon then set.erase epsilon ∪ g.firstOf first rest else set
    else {symbol}

/-- One pass over the rules; each sees what the ones before it have added. -/
def growFirst (g : Grammar) (first : SetMap) : SetMap :=
  g.rules.foldl (fun first rule => first.add rule.left (g.firstOf first rule.right)) first

def firstSets (g : Grammar) : SetMap :=
  settle (SetMap.missing g.nonterminals (epsilon :: g.terminals.toList)) g.growFirst
    (.empty g.nonterminals)

/-! ## FOLLOW -/

/-- What can come next where `symbols` stand before something that starts with `after`. -/
def firstBefore (g : Grammar) (first : SetMap) (after : SymbolSet) (symbols : List Symbol) :
    SymbolSet :=
  let set := g.firstOf first symbols
  if set.contains epsilon then set.erase epsilon ∪ after else set

/-- Adds what the symbols of a right side of `left` contribute, from left to right. -/
def growFollowAlong (g : Grammar) (first : SetMap) (left : Symbol) :
    List Symbol → SetMap → SetMap
  | [], follow => follow
  | symbol :: rest, follow =>
    g.growFollowAlong first left rest <|
      if g.isNonterminal symbol then
        follow.add symbol (g.firstBefore first (follow.lookup left) rest)
      else follow

def growFollow (g : Grammar) (first follow : SetMap) : SetMap :=
  g.rules.foldl (fun follow rule => g.growFollowAlong first rule.left rule.right follow) follow

def followSets (g : Grammar) (first : SetMap) : SetMap :=
  settle (SetMap.missing g.nonterminals (endMarker :: g.terminals.toList)) (g.growFollow first)
    ((SetMap.empty g.nonterminals).add g.start {endMarker})

end Grammar

/-! ## All sets -/

structure Sets where
  first : SetMap
  follow : SetMap
  /-- One set per rule. -/
  select : List SymbolSet

namespace Sets

def ofGrammar (g : Grammar) : Sets :=
  let first := g.firstSets
  let follow := g.followSets first
  { first
    follow
    select := g.rules.map fun rule => g.firstBefore first (follow.lookup rule.left) rule.right }

def isNullable (sets : Sets) (symbol : Symbol) : Bool :=
  (sets.first.lookup symbol).contains epsilon

end Sets
end FrontEnd
