import FrontEnd.Grammar.Prepared
import FrontEnd.Parse.Fault
import FrontEnd.Parse.PartialTree
import FrontEnd.Token.Scanner

/-! # Parse steps

A parse works on the focus of a partial tree and the next terminal of the input, whose last one is
the end marker.

* `Action.choose`: what the predictive table says.
* `ParseState.step?`: carries it out; there is no step once the tree is complete or the input,
  end marker included, is used up.
-/

namespace FrontEnd
set_option autoImplicit false

/-- One item of a parser's input. -/
structure Terminal where
  symbol : Symbol
  value : Option String
  line : Nat
deriving DecidableEq, Repr

def Terminal.ofToken (token : Token) : Terminal :=
  ⟨token.category.name, token.value, token.line⟩

/-! ## Choosing -/

inductive Action where
  /-- Put the production of this rule below the focus. -/
  | expand (index : Nat)
  /-- Drop a nonterminal that would be expanded inside itself. -/
  | cut
  /-- Drop a nonterminal at a synchronisation point. -/
  | synch
  /-- Skip the input for want of a table cell. -/
  | skip
  /-- Pass over `ε`. -/
  | vanish
  | accept
  /-- Drop a terminal together with the input, which is another one. -/
  | replace
deriving DecidableEq, Repr

def Action.choose (g : PreparedGrammar) (path : Path) (focus : Symbol) (position : Nat)
    (found : Symbol) : Action :=
  if g.normalized.isNonterminal focus then
    match g.table.cell? focus found with
    | none => skip
    | some .synch => synch
    | some (.expand index) => if path.reopens focus position then cut else expand index
  else if focus == epsilon then vanish
  else if focus == found then accept
  else replace

/-! ## Carrying out -/

structure ParseState where
  tree : PartialTree
  input : List Terminal
  /-- The number of terminals before `input`. -/
  position : Nat
  errors : List SyntaxError

namespace ParseState

def addError (s : ParseState) (line : Nat) (fault : SyntaxFault) : ParseState :=
  { s with errors := s.errors ++ [⟨line, fault⟩] }

/-- The focus becomes a childless node on the line of the next terminal. -/
def finish (s : ParseState) (path : Path) (focus : Symbol) (value : Option String) (line : Nat) :
    ParseState :=
  { s with tree := .fill ⟨focus, line, value, []⟩ path }

def advance (s : ParseState) : ParseState :=
  { s with input := s.input.tail, position := s.position + 1 }

def apply (g : PreparedGrammar) (s : ParseState) (path : Path) (focus : Symbol) (next : Terminal) :
    Action → ParseState
  | .expand index =>
    { s with tree := .expand path focus next.line s.position (g.normalized.production index) }
  | .cut => (s.finish path focus none next.line).addError next.line (.cycle focus)
  | .synch =>
    (s.finish path focus none next.line).addError next.line (.synchronized focus next.symbol)
  | .skip => s.advance.addError next.line (.noEntry focus next.symbol)
  | .vanish => s.finish path focus none next.line
  | .accept => (s.finish path focus next.value next.line).advance
  | .replace =>
    ((s.finish path focus none next.line).advance).addError next.line
      (.mismatch focus next.symbol)

def step? (g : PreparedGrammar) (s : ParseState) : Option ParseState :=
  match s.tree, s.input with
  | .focused path focus, next :: _ =>
    some (s.apply g path focus next (.choose g path focus s.position next.symbol))
  | _, _ => none

end ParseState
end FrontEnd
