import FrontEnd.Proofs.Grammar.Unambiguous

/-! # The built-in grammar, normalized

* `Grammar.expanded`: the rules that normalizing the built-in grammar gives.
* `Grammar.productionsOf`: all that a nonterminal can have below it.
-/

namespace FrontEnd
set_option autoImplicit false

namespace Grammar

/-- The productions of a symbol, in the order of the rules. -/
def productionsOf (g : Grammar) (symbol : Symbol) : List (List Symbol) :=
  (g.rules.filter (·.left == symbol)).map Rule.production

theorem production_mem {g : Grammar} {rule : Rule} (hr : rule ∈ g.rules) :
    rule.production ∈ g.productionsOf rule.left :=
  List.mem_map_of_mem (List.mem_filter.2 ⟨hr, by simp⟩)

theorem exists_rule {g : Grammar} {symbol : Symbol} {production : List Symbol}
    (h : production ∈ g.productionsOf symbol) :
    ∃ rule ∈ g.rules, rule.left = symbol ∧ rule.production = production := by
  obtain ⟨rule, hr, rfl⟩ := List.mem_map.1 h
  obtain ⟨hm, hl⟩ := List.mem_filter.1 hr
  exact ⟨rule, hm, by simpa using hl, rfl⟩

/-- The built-in grammar without shared prefixes and left recursion. -/
def expanded : Grammar where
  rules :=
    [⟨"Program", [epsilon]⟩,
     ⟨"Program", ["VariableDeclaration", "SEMI", "Program"]⟩,
     ⟨"Program", ["StructDeclaration", "SEMI", "Program"]⟩,
     ⟨"Program", ["IfStatement", "Program"]⟩,
     ⟨"Program", ["WhileStatement", "Program"]⟩,
     ⟨"Program", ["DoWhileStatement", "SEMI", "Program"]⟩,
     ⟨"Program", ["ForStatement", "Program"]⟩,
     ⟨"StructDeclaration", ["STRUCT", "ID", "LC", "StructBody", "RC"]⟩,
     ⟨"StructBody", ["TYPE", "ID", "SEMI", "StructBody"]⟩,
     ⟨"StructBody", [epsilon]⟩,
     ⟨"VariableDeclaration", ["TYPE", "ID", "Init"]⟩,
     ⟨"VariableDeclaration", ["ID", "Init"]⟩,
     ⟨"Init", ["ASSIGNOP", "Expression"]⟩,
     ⟨"Init", ["LB", "INT", "RB", "Init"]⟩,
     ⟨"Init", [epsilon]⟩,
     ⟨"IfStatement", ["IF", "LP", "Expression", "RP", "LC", "Program", "RC", "ElsePart"]⟩,
     ⟨"ElsePart", ["ELSE", "LC", "Program", "RC"]⟩,
     ⟨"ElsePart", [epsilon]⟩,
     ⟨"WhileStatement", ["WHILE", "LP", "Expression", "RP", "LC", "Program", "RC"]⟩,
     ⟨"DoWhileStatement", ["DO", "LC", "Program", "RC", "WHILE", "LP", "Expression", "RP"]⟩,
     ⟨"ForStatement", ["FOR", "LP", "ForInit", "SEMI", "Expression", "SEMI", "ForStep", "RP",
        "LC", "Program", "RC"]⟩,
     ⟨"ForInit", ["VariableDeclaration"]⟩,
     ⟨"ForInit", [epsilon]⟩,
     ⟨"ForStep", ["ID", "ASSIGNOP", "Expression"]⟩,
     ⟨"ForStep", [epsilon]⟩,
     ⟨"Expression", ["Conjunction", "Expression'"]⟩,
     ⟨"Expression'", ["OR", "Conjunction", "Expression'"]⟩,
     ⟨"Expression'", [epsilon]⟩,
     ⟨"Conjunction", ["Relation", "Conjunction'"]⟩,
     ⟨"Conjunction'", ["AND", "Relation", "Conjunction'"]⟩,
     ⟨"Conjunction'", [epsilon]⟩,
     ⟨"Relation", ["Sum", "RelationSum"]⟩,
     ⟨"RelationSum", ["RELOP", "Sum"]⟩,
     ⟨"RelationSum", [epsilon]⟩,
     ⟨"Sum", ["Term", "Sum'"]⟩,
     ⟨"Sum'", ["SumSum", "Sum'"]⟩,
     ⟨"Sum'", [epsilon]⟩,
     ⟨"SumSum", ["PLUS", "Term"]⟩,
     ⟨"SumSum", ["MINUS", "Term"]⟩,
     ⟨"Term", ["Factor", "Term'"]⟩,
     ⟨"Term'", ["TermTerm", "Term'"]⟩,
     ⟨"Term'", [epsilon]⟩,
     ⟨"TermTerm", ["STAR", "Factor"]⟩,
     ⟨"TermTerm", ["DIV", "Factor"]⟩,
     ⟨"TermTerm", ["MOD", "Factor"]⟩,
     ⟨"Factor", ["ID"]⟩,
     ⟨"Factor", ["INT"]⟩,
     ⟨"Factor", ["FLOAT"]⟩,
     ⟨"Factor", ["LP", "Expression", "RP"]⟩]
  nonempty := by simp

theorem normalized_builtin : PreparedGrammar.builtin.normalized = expanded := by
  have h : PreparedGrammar.builtin.normalized.rules = expanded.rules := by decide +kernel
  cases hg : PreparedGrammar.builtin.normalized
  cases he : expanded
  rw [hg, he] at h
  simpa using h

theorem conflicts_expanded : expanded.table.conflicts = [] := by
  decide +kernel

theorem isNonterminal_epsilon_expanded : expanded.isNonterminal epsilon = false := by
  decide

/-- No rule of the built-in grammar mentions the end of the input. -/
theorem endMarker_not_mem_expanded : ∀ rule ∈ expanded.rules, endMarker ∉ rule.right := by
  decide

end Grammar
end FrontEnd
