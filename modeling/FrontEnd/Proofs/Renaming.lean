import FrontEnd.Proofs.Declarations
import FrontEnd.Proofs.Lowering.Renaming
import Mathlib.Logic.Equiv.Basic

/-! # Names do not matter

Other names in the parse tree of a source text give the same symbols, the same code and the same
complaints, with other names. Nothing depends on how a name is spelled or on which names there are,
only on which of them are the same.

* `Tree.isRead_compile`: in the trees of source texts the places of names and literals are known.
* `analyzeTree_rename`: what a tree with other names is lowered to.
* `Renaming.exchange`: two names that take each other's places.
-/

namespace FrontEnd
set_option autoImplicit false

theorem Tree.isRead_compile (source : String) : (compile .builtin source).parsed.tree.IsRead where
  follows := (followsRules_compile source).1
  literals _ hn hs _ hv := isLiteral_of_mem_nodes hn hv hs

/-- For every source text, with or without faults: with other names at the `ID` nodes of its tree,
the symbol table has the same entries with other names, there is the same code with other operands
and results, and there are the same complaints on the same lines, in the same order, with other
names in them. It does not matter whether the text has identifiers that look like temporaries, since
no renaming moves these. -/
theorem analyzeTree_rename (r : Renaming) (source : String) :
    let lowered := analyzeTree (compile .builtin source).parsed.tree
    let renamed := analyzeTree ((compile .builtin source).parsed.tree.rename r)
    renamed.symbols.entries =
        lowered.symbols.entries.map (fun entry => (r entry.1, entry.2.rename r)) ∧
      renamed.code.instructions = lowered.code.instructions.map (Instruction.rename r) ∧
      renamed.errors = lowered.errors.map (SemanticError.rename r) ∧
      renamed.errors.map (·.line) = lowered.errors.map (·.line) := by
  intro lowered renamed
  have h : Lowering.Renamed r lowered renamed := by
    have hanalyzed := renamed_analyze r
      (Statement.listOfTree (compile .builtin source).parsed.tree)
    rwa [← Statement.listOfTree_rename _ (Tree.isRead_compile source)] at hanalyzed
  refine ⟨?_, h.instructions, h.errors, ?_⟩
  · rw [h.entries, Ty.renameFields_eq]
  · rw [h.errors, List.map_map]
    rfl

/-- Two identifiers take each other's places. -/
def Renaming.exchange (a b : String) (ha : IsIdentifier a ∧ isTemporaryName a = false)
    (hb : IsIdentifier b ∧ isTemporaryName b = false) : Renaming where
  map := Equiv.swap a b
  injective := (Equiv.swap a b).injective
  of_not_identifier text h :=
    Equiv.swap_apply_of_ne_of_ne (fun he => h (he ▸ ha.1)) (fun he => h (he ▸ hb.1))
  of_temporary text h := by
    refine Equiv.swap_apply_of_ne_of_ne ?_ ?_
    · rintro rfl
      exact absurd (h.symm.trans ha.2) (by simp)
    · rintro rfl
      exact absurd (h.symm.trans hb.2) (by simp)

/-- A struct and one of its fields trade names with each other and with a variable. -/
def crossed : String := "struct x { int y; }; y = 1; int y; y = x + 1;"

def crossing : Renaming := .exchange "x" "y" (by decide) (by decide)

theorem analyzeTree_rename_crossed :
    (analyzeTree ((compile .builtin crossed).parsed.tree.rename crossing)).symbols.entries =
        [("y", .record [("x", .primitive "int")]), ("x", .primitive "int")] ∧
      (analyzeTree ((compile .builtin crossed).parsed.tree.rename crossing)).code.instructions =
        #[.binary "+" "y" "1" "t1", .copy "t1" "x"] ∧
      (analyzeTree ((compile .builtin crossed).parsed.tree.rename crossing)).errors =
        [⟨1, .undeclared "x"⟩,
          ⟨1, .typeMismatch (.record [("x", .primitive "int")]) .int⟩] := by
  obtain ⟨hentries, hinstructions, herrors⟩ :
      (analyzeTree (compile .builtin crossed).parsed.tree).symbols.entries =
          [("x", .record [("y", .primitive "int")]), ("y", .primitive "int")] ∧
        (analyzeTree (compile .builtin crossed).parsed.tree).code.instructions =
          #[.binary "+" "x" "1" "t1", .copy "t1" "y"] ∧
        (analyzeTree (compile .builtin crossed).parsed.tree).errors =
          [⟨1, .undeclared "y"⟩,
            ⟨1, .typeMismatch (.record [("y", .primitive "int")]) .int⟩] := by
    decide +kernel
  have h := analyzeTree_rename crossing crossed
  refine ⟨?_, ?_, ?_⟩
  · rw [h.1, hentries]
    decide
  · rw [h.2.1, hinstructions, List.map_toArray]
    exact congrArg List.toArray (by decide)
  · rw [h.2.2.1, herrors]
    decide

end FrontEnd
