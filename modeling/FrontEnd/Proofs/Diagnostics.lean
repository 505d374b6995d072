import FrontEnd.Compilation
import FrontEnd.Proofs.Lowering.Lines
import FrontEnd.Proofs.Token.Partition

/-! # Where diagnostics point

Every stage hands its lines on to the next: segments to tokens, these to the nodes of the tree that
the parse reached, and these to the program. A source text has one line more than it has newlines,
and no stage makes up another.

* `IsLine`: the lines of a source text.
* `compile_diagnostics_on_lines`: every diagnostic points at one of them.
-/

namespace FrontEnd
set_option autoImplicit false

/-- Lines are counted from 1, and each newline starts another. -/
def IsLine (source : String) (line : Nat) : Prop :=
  1 ≤ line ∧ line ≤ 1 + source.toList.count '\n'

section
variable {source : String}

theorem isLine_first (source : String) : IsLine source 1 := ⟨Nat.le_refl 1, Nat.le_add_right ..⟩

theorem isLine_of_mem_tokens {token : Token} (h : token ∈ (tokenize source).1) :
    IsLine source token.line := by
  have hline := line_of_mem_tokensFrom h
  rwa [flatMap_text_segments] at hline

theorem isLine_of_mem_lexicalErrors {error : LexicalError} (h : error ∈ (tokenize source).2) :
    IsLine source error.line := by
  have hline := line_of_mem_errorsFrom h
  rwa [flatMap_text_segments] at hline

/-- The complaints of the parse are on lines of the source, and so is what the parse reached. -/
theorem isLine_of_parsed (g : PreparedGrammar) (source : String) :
    (∀ error ∈ (compile g source).parsed.errors, IsLine source error.line) ∧
      Tree.Reached (IsLine source) (compile g source).parsed.tree.nodes := by
  refine parse_onLines g (isLine_first source) fun t ht => ?_
  obtain ⟨token, hm, rfl⟩ := List.mem_map.1 ht
  exact isLine_of_mem_tokens hm

theorem isLine_of_mem_lowered (g : PreparedGrammar) {error : SemanticError}
    (h : error ∈ (compile g source).lowered.errors) : IsLine source error.line :=
  Statement.lines_listOfTree _ (isLine_of_parsed g source).2 _ (line_mem_of_mem_analyze h)

end

theorem LexicalError.line?_report (error : LexicalError) : error.report.line? = some error.line := by
  obtain ⟨line, fault⟩ := error
  cases fault <;> rfl

/-- Whatever the grammar and the source text, a diagnostic of the lexer, the parser or the analysis
points at a line of the source. -/
theorem compile_diagnostics_on_lines (g : PreparedGrammar) (source : String) (d : Diagnostic)
    (h : d ∈ (compile g source).diagnostics) :
    ∃ line, d.line? = some line ∧ 1 ≤ line ∧ line ≤ 1 + source.toList.count '\n' := by
  rw [Compilation.diagnostics, List.mem_append, List.mem_append] at h
  rcases h with (h | h) | h
  · obtain ⟨error, he, rfl⟩ := List.mem_map.1 h
    exact ⟨error.line, error.line?_report, isLine_of_mem_lexicalErrors he⟩
  · obtain ⟨error, he, rfl⟩ := List.mem_map.1 h
    exact ⟨error.line, rfl, (isLine_of_parsed g source).1 error he⟩
  · obtain ⟨error, he, rfl⟩ := List.mem_map.1 h
    exact ⟨error.line, rfl, isLine_of_mem_lowered g he⟩

/-- Declarations without a value and sums of two operands. -/
def Grammar.mixing : Grammar where
  rules := [⟨"Program", ["VariableDeclaration", "SEMI", "Program"]⟩, ⟨"Program", [epsilon]⟩,
    ⟨"VariableDeclaration", ["TYPE", "ID"]⟩, ⟨"VariableDeclaration", ["ID", "Init"]⟩,
    ⟨"Init", ["ASSIGNOP", "Sum"]⟩, ⟨"Sum", ["ID", "Tail"]⟩, ⟨"Tail", ["PLUS", "FLOAT"]⟩]
  nonempty := List.cons_ne_nil _ _

def mixedSum : String := "int x;\nx = x + 1.5 @;\n)"

/-- The complaint about the types is on the line of the operator. -/
theorem compile_diagnostics_on_lines_mixedSum :
    (compile (.ofGrammar .mixing) mixedSum).diagnostics =
        [.unrecognized 2 '@', .syntactic 3 "no entry for (Program, RP); skipped input RP",
          .semantic 2 "type mismatch: int vs float"] ∧
      ∃ line, (Diagnostic.semantic 2 "type mismatch: int vs float").line? = some line ∧
        1 ≤ line ∧ line ≤ 1 + mixedSum.toList.count '\n' := by
  have hdiagnostics : (compile (.ofGrammar .mixing) mixedSum).diagnostics =
      [.unrecognized 2 '@', .syntactic 3 "no entry for (Program, RP); skipped input RP",
        .semantic 2 "type mismatch: int vs float"] := by
    decide +kernel
  refine ⟨hdiagnostics, compile_diagnostics_on_lines (.ofGrammar .mixing) mixedSum _ ?_⟩
  rw [hdiagnostics]
  decide

end FrontEnd
