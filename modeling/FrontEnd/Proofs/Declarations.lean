import FrontEnd.Proofs.Program.Declarations

/-! # The first declaration of a name wins

The parse tree of a source text, with errors or without, shows what is declared in it, and the list
of these declarations determines the symbol table and the complaints about redeclarations.

* `Diagnostic.isRedeclaration`: the diagnostics that complain about a redeclaration.
* `compile_first_declaration_wins`: what a source text declares is in the table once.
-/

namespace FrontEnd
set_option autoImplicit false

/-! ## Complaints about redeclarations -/

/-- The diagnostic of a second declaration, told by its words. -/
def Diagnostic.isRedeclaration : Diagnostic → Bool
  | .semantic _ message => "redeclaration of '".toList.isPrefixOf message.toList
  | _ => false

theorem head?_append (words others : String) {c : Char} (h : words.toList.head? = some c) :
    (words ++ others).toList.head? = some c := by
  rw [String.toList_append, List.head?_append, h]
  rfl

/-- All other complaints of the analysis start with another letter. -/
theorem SemanticFault.exists_head_message {line : Nat} {fault : SemanticFault}
    (h : SemanticError.isRedeclaration ⟨line, fault⟩ = false) :
    ∃ c, c ≠ 'r' ∧ fault.message.toList.head? = some c := by
  cases fault with
  | redeclaration => exact absurd h (Ne.symm Bool.false_ne_true)
  | undeclared => exact ⟨'u', by decide, head?_append _ _ (head?_append _ _ rfl)⟩
  | suffixedTarget => exact ⟨'a', by decide, head?_append _ _ (head?_append _ _ rfl)⟩
  | initializedArray => exact ⟨'a', by decide, head?_append _ _ (head?_append _ _ rfl)⟩
  | invalidSize =>
    refine ⟨'i', by decide, head?_append _ _ (head?_append _ _ ?_)⟩
    exact head?_append _ _ (head?_append _ _ rfl)
  | duplicateField =>
    refine ⟨'d', by decide, head?_append _ _ (head?_append _ _ ?_)⟩
    exact head?_append _ _ (head?_append _ _ rfl)
  | typeMismatch =>
    exact ⟨'t', by decide, head?_append _ _ (head?_append _ _ (head?_append _ _ rfl))⟩

theorem SemanticError.isRedeclaration_report (error : SemanticError) :
    error.report.isRedeclaration = error.isRedeclaration := by
  obtain ⟨line, fault⟩ := error
  cases h : isRedeclaration ⟨line, fault⟩ with
  | true =>
    obtain ⟨name, rfl⟩ : ∃ name, fault = .redeclaration name := by
      cases fault with
      | redeclaration name => exact ⟨name, rfl⟩
      | undeclared | suffixedTarget | initializedArray | invalidSize | duplicateField
        | typeMismatch => exact absurd h Bool.false_ne_true
    have hprefix : "redeclaration of '".toList <+:
        ("redeclaration of '" ++ name ++ "'").toList := by
      rw [String.toList_append, String.toList_append, List.append_assoc]
      exact List.prefix_append ..
    exact List.isPrefixOf_iff_prefix.2 hprefix
  | false =>
    obtain ⟨c, hc, hhead⟩ := SemanticFault.exists_head_message h
    have hwords : "redeclaration of '".toList.head? = some 'r' := rfl
    refine Bool.eq_false_iff.2 fun hp => ?_
    obtain ⟨rest, he⟩ := List.isPrefixOf_iff_prefix.1 hp
    rw [← he, List.head?_append, hwords] at hhead
    exact hc (Option.some.inj hhead).symm

/-- Only the analysis complains about redeclarations. -/
theorem filter_isRedeclaration_diagnostics (c : Compilation) :
    c.diagnostics.filter (·.isRedeclaration) =
      c.lowered.scope.redeclarations.map (·.report) := by
  have hlexical : (c.lexicalErrors.map (·.report)).filter (·.isRedeclaration) = [] := by
    refine List.filter_eq_nil_iff.2 fun d hd => ?_
    obtain ⟨⟨line, fault⟩, -, rfl⟩ := List.mem_map.1 hd
    cases fault <;> exact Bool.false_ne_true
  have hsyntactic : (c.parsed.errors.map (·.report)).filter (·.isRedeclaration) = [] := by
    refine List.filter_eq_nil_iff.2 fun d hd => ?_
    obtain ⟨error, -, rfl⟩ := List.mem_map.1 hd
    exact Bool.false_ne_true
  rw [Compilation.diagnostics, List.filter_append, List.filter_append, hlexical, hsyntactic,
    List.nil_append, List.nil_append, List.filter_map, Lowering.scope]
  exact congrArg _ (List.filter_congr fun error _ => error.isRedeclaration_report)

/-! ## Source texts -/

/-- What a source text declares, in the order of the text. -/
def Compilation.declarations (c : Compilation) : List Declared := c.parsed.tree.declarations

/-- The tree of a source text follows the rules of the built-in grammar. -/
theorem followsRules_compile (source : String) :
    (compile .builtin source).parsed.tree.FollowsRules Grammar.expanded ∧
      (compile .builtin source).parsed.tree.symbol = "Program" := by
  have h := parse_followsRules (g := .builtin) rfl ((tokenize source).1.map .ofToken)
  rw [Grammar.normalized_builtin] at h
  exact h

/-- The statements of a source text declare what is declared in the parse tree. -/
theorem allDeclarators_compile (source : String) :
    Statement.allDeclarators (Statement.listOfTree (compile .builtin source).parsed.tree) =
      (compile .builtin source).parsed.tree.declarators :=
  have ⟨hshape, hstart⟩ := followsRules_compile source
  (Tree.declaresAll_of_followsRules _ hshape).program hstart

/-- Compiling declares what is declared in the parse tree, and nothing else. -/
theorem register_compile (source : String) :
    (compile .builtin source).lowered.register =
      Register.empty.declareAll (compile .builtin source).parsed.tree.declarators :=
  (Statement.register_lowerList _ .initial).trans
    (congrArg Register.empty.declareAll (allDeclarators_compile source))

theorem scope_compile (source : String) :
    (compile .builtin source).lowered.scope =
      Scope.empty.declareAll (compile .builtin source).declarations := by
  rw [← Lowering.scope_register, register_compile, Register.scope_declareAll,
    Compilation.declarations, Tree.declarations_eq_map]
  rfl

/-- For every source text, the names in the symbol table are those that are declared, in the order
of their first declarations and with the types of these; looking up a name finds its entry; and the
complaints about redeclarations are one for each later declaration of a name, in their order. -/
theorem compile_first_declaration_wins (source : String) :
    (compile .builtin source).lowered.symbols.names =
        ((compile .builtin source).declarations.map (·.name)).eraseDups ∧
      (∀ name type, (name, type) ∈ (compile .builtin source).lowered.symbols.entries ↔
        ((compile .builtin source).declarations.find? (·.name == name)).map (·.type) =
          some type) ∧
      (∀ name type, (compile .builtin source).lowered.symbols.get? name = some type ↔
        (name, type) ∈ (compile .builtin source).lowered.symbols.entries) ∧
      (∀ name, (compile .builtin source).lowered.symbols.contains name = true ↔
        name ∈ (compile .builtin source).lowered.symbols.names) ∧
      (compile .builtin source).diagnostics.filter (·.isRedeclaration) =
        (Declared.repeats [] (compile .builtin source).declarations).map fun d =>
          .semantic d.line s!"redeclaration of '{d.name}'" := by
  obtain ⟨hfirsts, hrepeats⟩ := Scope.declareAll_empty (compile .builtin source).declarations
  rw [← scope_compile, Lowering.symbols_scope] at hfirsts
  rw [← scope_compile] at hrepeats
  refine ⟨?_, fun name type => ?_, fun _ _ => SymbolTable.get?_eq_some_iff,
    fun _ => SymbolTable.contains_iff, ?_⟩
  · rw [SymbolTable.names, hfirsts, Declared.names_firsts]
    exact congrArg List.eraseDups (List.filter_eq_self.2 fun _ _ => by simp)
  · rw [hfirsts, Declared.mem_firsts]
    simp
  · rw [filter_isRedeclaration_diagnostics, hrepeats, List.map_map]
    rfl

end FrontEnd
