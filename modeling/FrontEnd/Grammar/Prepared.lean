import FrontEnd.Grammar.Builtin
import FrontEnd.Grammar.Table

/-! # Grammars prepared for parsing

A prepared grammar keeps the grammar as written, its left-factored form and its normal form, with
the sets and the predictive table of the normal form. It is made once and serves every parse.
-/

namespace FrontEnd
set_option autoImplicit false

structure PreparedGrammar where
  source : Grammar
  factored : Grammar
  normalized : Grammar
  sets : Sets
  table : Table

namespace PreparedGrammar

def ofGrammar (source : Grammar) : PreparedGrammar :=
  let factored := source.leftFactored
  let normalized := factored.withoutLeftRecursion
  let sets := Sets.ofGrammar normalized
  { source, factored, normalized, sets, table := .ofSets normalized sets }

def ofText (text : String) : Except GrammarError PreparedGrammar :=
  (Grammar.ofText text).map ofGrammar

def builtin : PreparedGrammar := ofGrammar .builtin

end PreparedGrammar
end FrontEnd
