import FrontEnd.Diagnostic
import FrontEnd.Grammar.Rule

/-! # Syntax faults

What a parse can complain about, and the words for it.
-/

namespace FrontEnd
set_option autoImplicit false

inductive SyntaxFault where
  /-- The table has no cell for the nonterminal on top; the terminal is skipped. -/
  | noEntry (nonterminal found : Symbol)
  /-- The nonterminal on top is dropped at a synchronisation point. -/
  | synchronized (nonterminal found : Symbol)
  /-- A terminal other than the expected one; both are dropped. -/
  | mismatch (expected found : Symbol)
  /-- The nonterminal would be expanded inside itself without any input in between. -/
  | cycle (nonterminal : Symbol)
  /-- The tree is complete and this terminal is left. -/
  | trailing (found : Symbol)
deriving DecidableEq, Repr

namespace SyntaxFault

def note : SyntaxFault → String
  | noEntry nonterminal found =>
    s!"no entry for ({nonterminal}, {found}); skipped input {found}"
  | synchronized nonterminal found => s!"synch: popped {nonterminal} at {found}"
  | mismatch expected found =>
    s!"expected {expected} but found {found}; popped {expected} and skipped input"
  | cycle nonterminal => s!"expansion cycle on {nonterminal}"
  | trailing found => s!"unexpected trailing input starting at {found}"

end SyntaxFault

structure SyntaxError where
  line : Nat
  fault : SyntaxFault
deriving DecidableEq, Repr

def SyntaxError.report (error : SyntaxError) : Diagnostic :=
  .syntactic error.line error.fault.note

end FrontEnd
