import FrontEnd.Grammar.Basic

/-! # The built-in grammar

A small subset of C: declarations, assignments, structs, `if`, `while`, `do` and `for`, and
expressions with the usual precedences. It is written the natural way, with left recursion and
shared prefixes; `Grammar.normalized` makes it fit for prediction.
-/

namespace FrontEnd
set_option autoImplicit false

def builtinRules : List Rule :=
  [⟨"Program", [epsilon]⟩,
   ⟨"Program", ["VariableDeclaration", "SEMI", "Program"]⟩,
   ⟨"Program", ["StructDeclaration", "SEMI", "Program"]⟩,
   ⟨"Program", ["IfStatement", "Program"]⟩,
   ⟨"Program", ["WhileStatement", "Program"]⟩,
   ⟨"Program", ["DoWhileStatement", "SEMI", "Program"]⟩,
   ⟨"Program", ["ForStatement", "Program"]⟩,
   ⟨"StructDeclaration", ["STRUCT", "ID", "LC", "StructBody", "RC"]⟩,
   ⟨"StructBody", ["TYPE", "ID", "SEMI", "StructBody"]⟩,
   ⟨"StructBody", [epsilon]⟩,
   ⟨"VariableDeclaration", ["TYPE", "ID", "Init"]⟩,
   ⟨"VariableDeclaration", ["ID", "Init"]⟩,
   ⟨"Init", ["ASSIGNOP", "Expression"]⟩,
   ⟨"Init", ["LB", "INT", "RB", "Init"]⟩,
   ⟨"Init", [epsilon]⟩,
   ⟨"IfStatement", ["IF", "LP", "Expression", "RP", "LC", "Program", "RC", "ElsePart"]⟩,
   ⟨"ElsePart", ["ELSE", "LC", "Program", "RC"]⟩,
   ⟨"ElsePart", [epsilon]⟩,
   ⟨"WhileStatement", ["WHILE", "LP", "Expression", "RP", "LC", "Program", "RC"]⟩,
   ⟨"DoWhileStatement", ["DO", "LC", "Program", "RC", "WHILE", "LP", "Expression", "RP"]⟩,
   ⟨"ForStatement", ["FOR", "LP", "ForInit", "SEMI", "Expression", "SEMI", "ForStep", "RP", "LC",
      "Program", "RC"]⟩,
   ⟨"ForInit", ["VariableDeclaration"]⟩,
   ⟨"ForInit", [epsilon]⟩,
   ⟨"ForStep", ["ID", "ASSIGNOP", "Expression"]⟩,
   ⟨"ForStep", [epsilon]⟩,
   ⟨"Expression", ["Expression", "OR", "Conjunction"]⟩,
   ⟨"Expression", ["Conjunction"]⟩,
   ⟨"Conjunction", ["Conjunction", "AND", "Relation"]⟩,
   ⟨"Conjunction", ["Relation"]⟩,
   ⟨"Relation", ["Sum", "RELOP", "Sum"]⟩,
   ⟨"Relation", ["Sum"]⟩,
   ⟨"Sum", ["Sum", "PLUS", "Term"]⟩,
   ⟨"Sum", ["Sum", "MINUS", "Term"]⟩,
   ⟨"Sum", ["Term"]⟩,
   ⟨"Term", ["Term", "STAR", "Factor"]⟩,
   ⟨"Term", ["Term", "DIV", "Factor"]⟩,
   ⟨"Term", ["Term", "MOD", "Factor"]⟩,
   ⟨"Term", ["Factor"]⟩,
   ⟨"Factor", ["ID"]⟩,
   ⟨"Factor", ["INT"]⟩,
   ⟨"Factor", ["FLOAT"]⟩,
   ⟨"Factor", ["LP", "Expression", "RP"]⟩]

def Grammar.builtin : Grammar := ⟨builtinRules, by simp [builtinRules]⟩

end FrontEnd
