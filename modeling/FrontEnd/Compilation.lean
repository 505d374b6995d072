import FrontEnd.Lowering.Statement
import FrontEnd.Parse.Outcome
import FrontEnd.Program.OfTree

/-! # Compilation

The whole way from a source text to three-address code. No stage stops at a fault; each hands on
the best it has.

* `analyzeTree`: symbols, code and complaints for a parse tree.
* `compile`: all stages for one source text.
* `Compilation.diagnostics`: the complaints of all stages, in the order of the stages.
-/

namespace FrontEnd
set_option autoImplicit false

def analyzeTree (tree : Tree) : Lowering := analyze (Statement.listOfTree tree)

structure Compilation where
  tokens : List Token
  lexicalErrors : List LexicalError
  parsed : ParseOutcome
  lowered : Lowering

def compile (g : PreparedGrammar) (source : String) : Compilation :=
  let scanned := tokenize source
  let parsed := parseTokens g scanned.1
  { tokens := scanned.1
    lexicalErrors := scanned.2
    parsed
    lowered := analyzeTree parsed.tree }

def Compilation.diagnostics (c : Compilation) : List Diagnostic :=
  c.lexicalErrors.map (·.report) ++ c.parsed.errors.map (·.report) ++
    c.lowered.errors.map (·.report)

end FrontEnd
