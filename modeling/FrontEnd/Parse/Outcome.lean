import FrontEnd.Parse.Termination

/-! # Parsing

A parse steps from the start symbol until the tree is complete or the input, end marker included,
is used up. Each fault is noted and repaired on the way, so there always is a tree.

* `ParseState.run`: all steps.
* `parse`: the tree of a list of terminals and the faults in it. A parse is complete when exactly
  the terminals before the end marker have been used.
-/

namespace FrontEnd
set_option autoImplicit false

namespace ParseState

/-- The end marker stands on the line of the last terminal. -/
def ofTerminals (g : PreparedGrammar) (terminals : List Terminal) : ParseState where
  tree := .focused [] g.normalized.start
  input := terminals ++ [⟨endMarker, none, (terminals.getLast?.map (·.line)).getD 1⟩]
  position := 0
  errors := []

def run (g : PreparedGrammar) (s : ParseState) : ParseState :=
  match found : s.step? g with
  | none => s
  | some t =>
    have := weight_step?_lt found
    run g t
termination_by s.weight g.normalized

/-- The complaint about what is left before the end marker when the tree is complete. -/
def trailing (s : ParseState) : List SyntaxError :=
  match s.tree, s.input with
  | .complete _, next :: _ :: _ => [⟨next.line, .trailing next.symbol⟩]
  | _, _ => []

end ParseState

structure ParseOutcome where
  tree : Tree
  /-- The number of terminals that were matched or skipped. -/
  consumed : Nat
  complete : Bool
  errors : List SyntaxError

def parse (g : PreparedGrammar) (terminals : List Terminal) : ParseOutcome :=
  let final := (ParseState.ofTerminals g terminals).run g
  { tree := final.tree.toTree
    consumed := min final.position terminals.length
    complete := final.position == terminals.length
    errors := final.errors ++ final.trailing }

def parseTokens (g : PreparedGrammar) (tokens : List Token) : ParseOutcome :=
  parse g (tokens.map .ofToken)

end FrontEnd
