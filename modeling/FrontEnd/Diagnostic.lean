/-! # Diagnostics as they are reported

Every stage finds faults of its own kind; a report shows them in one form.

* `Diagnostic`: a report line of one of five kinds.
* `Diagnostic.text`: its message.
* `Diagnostic.line?`: the source line that it points at; a grammar conflict has none.
-/

namespace FrontEnd
set_option autoImplicit false

inductive Diagnostic where
  | unrecognized (line : Nat) (character : Char)
  | unterminatedComment (line : Nat)
  | syntactic (line : Nat) (note : String)
  | semantic (line : Nat) (message : String)
  /-- The rules `existing` and `incoming` of `nonterminal` both select `terminal`. -/
  | conflict (nonterminal terminal : String) (existing incoming : Nat)
deriving DecidableEq, Repr

namespace Diagnostic

def text : Diagnostic → String
  | unrecognized line character =>
    s!"Lexical error at Line {line}: Unrecognized Character: {character}"
  | unterminatedComment line => s!"Lexical error at Line {line}: Unterminated block comment"
  | syntactic line note => s!"Syntax error at Line {line}: {note}"
  | semantic line message => s!"Semantic error at Line {line}: {message}"
  | conflict nonterminal terminal existing incoming =>
    s!"({nonterminal}, {terminal}) conflict at rule {existing} vs {incoming}"

def line? : Diagnostic → Option Nat
  | unrecognized line _ | unterminatedComment line | syntactic line _ | semantic line _ =>
    some line
  | conflict .. => none

end Diagnostic

end FrontEnd
