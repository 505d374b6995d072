import FrontEnd.Grammar.Rule
import FrontEnd.Text.Split

/-! # Grammar texts

A grammar text has one rule a line: `left -> right right …`.

* `Rule.ofLine?`: the rule on a line. Lines without `->`, with an empty side, or with a blank
  inside the left side hold none.
* `readRules`: the rules of a text, in order.
* `rulesText`: the text of a list of rules.
-/

namespace FrontEnd
set_option autoImplicit false

def Rule.ofLine? (line : List Char) : Option Rule := do
  let sides ← Text.cutAtArrow? line
  let left := Text.trim sides.1
  let right := Text.words sides.2
  if left.isEmpty || right.isEmpty || left.any Text.isBlank then none
  else some ⟨String.ofList left, right.map String.ofList⟩

def readRules (text : String) : List Rule :=
  (Text.lines text.toList).filterMap Rule.ofLine?

def rulesText (rules : List Rule) : String :=
  String.join (rules.map fun rule => rule.text ++ "\n")

end FrontEnd
