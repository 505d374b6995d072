import FrontEnd.Proofs.Lowering.Declarations

/-! # Types that do not match

The types in the symbol table are declared ones, and a complaint about a mismatch shows two different
types, each of which is declared or that of a literal.

* `Lowering.Knows`: all types so far are good; a property of `int`, `float` and the declared types
  is one of all of them.
* `Expr.knows_lower`, `Guard.exists_knows`, `Statement.knows_lowerList`: lowering keeps it so.
* `knows_analyze`: the types of a program.
-/

namespace FrontEnd
set_option autoImplicit false

/-- A complaint about a mismatch is about different good types. -/
def SemanticError.Compares (good : Ty → Prop) (error : SemanticError) : Prop :=
  ∀ left right, error.fault = .typeMismatch left right → good left ∧ good right ∧ left ≠ right

theorem SemanticError.compares_of_isDeclarative {good : Ty → Prop} {error : SemanticError}
    (h : error.isDeclarative = true) : error.Compares good := by
  intro left right hf
  rw [isDeclarative, hf] at h
  exact absurd h (by simp)

/-- The types in the symbol table and in the complaints are good. -/
structure Lowering.Knows (good : Ty → Prop) (s : Lowering) : Prop where
  entries : ∀ entry ∈ s.symbols.entries, good entry.2
  errors : ∀ error ∈ s.errors, error.Compares good

/-- The type of an operand, if it is known, is good. -/
def Operand.Knows (good : Ty → Prop) (operand : Operand) : Prop :=
  ∀ type, operand.type = some type → good type

section
variable {good : Ty → Prop} {s t : Lowering}

/-! ## Single operations -/

namespace Lowering.Knows

theorem initial (good : Ty → Prop) : Lowering.initial.Knows good :=
  ⟨List.forall_mem_nil _, List.forall_mem_nil _⟩

theorem addErrors (hs : s.Knows good) {errors : List SemanticError}
    (he : ∀ error ∈ errors, error.isDeclarative = true) :
    Knows good { s with errors := s.errors ++ errors } :=
  ⟨hs.entries, List.forall_mem_append.2
    ⟨hs.errors, fun error h => SemanticError.compares_of_isDeclarative (he error h)⟩⟩

theorem addError (hs : s.Knows good) (line : Nat) {fault : SemanticFault}
    (hf : ∀ left right, fault ≠ .typeMismatch left right) : (s.addError line fault).Knows good :=
  ⟨hs.entries, List.forall_mem_append.2
    ⟨hs.errors, List.forall_mem_singleton.2 fun left right he => absurd he (hf left right)⟩⟩

theorem emit (hs : s.Knows good) (instruction : Instruction) : (s.emit instruction).Knows good :=
  ⟨hs.entries, hs.errors⟩

theorem emitFresh (hs : s.Knows good) (instruction : String → Instruction) :
    (s.emitFresh instruction).2.Knows good :=
  ⟨hs.entries, hs.errors⟩

theorem patch (hs : s.Knows good) (line target : Nat) : (s.patch line target).Knows good :=
  ⟨hs.entries, hs.errors⟩

theorem guarded (hs : s.Knows good) (jump : Instruction) : (s.guarded jump).Knows good :=
  ⟨hs.entries, hs.errors⟩

/-- Only here mismatches are complained about. -/
theorem checkTypes (hs : s.Knows good) (line : Nat) {left right : Operand}
    (hl : left.Knows good) (hr : right.Knows good) : (s.checkTypes line left right).Knows good := by
  unfold Lowering.checkTypes
  split
  · rename_i a b ha hb
    split
    · exact hs
    · rename_i hne
      refine ⟨hs.entries, List.forall_mem_append.2 ⟨hs.errors, List.forall_mem_singleton.2 ?_⟩⟩
      intro left right hf
      obtain ⟨rfl, rfl⟩ := SemanticFault.typeMismatch.inj hf
      exact ⟨hl a ha, hr b hb, hne⟩
  · exact hs

theorem compared (hs : s.Knows good) (line : Nat) {left right : Option Operand}
    (hl : ∀ a ∈ left, a.Knows good) (hr : ∀ b ∈ right, b.Knows good) :
    (s.compared line left right).Knows good := by
  unfold Lowering.compared
  split
  · exact hs.checkTypes line (hl _ rfl) (hr _ rfl)
  · exact hs

theorem declare (hs : s.Knows good) {name : String} {type : Ty} (ht : good type)
    {symbols : SymbolTable} (hi : s.symbols.insert? name type = some symbols) :
    Knows good { s with symbols } := by
  refine ⟨?_, hs.errors⟩
  dsimp only
  rw [SymbolTable.entries_of_insert? hi]
  exact List.forall_mem_append.2 ⟨hs.entries, List.forall_mem_singleton.2 ht⟩

end Lowering.Knows

/-! ## Expressions -/

variable (hint : good .int) (hfloat : good .float)
include hint

theorem Operand.knows_resultType {a b : Operand} (ha : a.Knows good) (hb : b.Knows good)
    (op place : String) : Operand.Knows good ⟨place, resultType op a b, true⟩ := by
  intro type ht
  dsimp only at ht
  unfold resultType at ht
  split at ht
  · exact Option.some.inj ht ▸ hint
  · rcases Option.or_eq_some_iff.1 ht with ht | ⟨-, ht⟩
    · exact ha type ht
    · exact hb type ht

include hfloat

theorem Expr.knows_lower (e : Expr) (hs : s.Knows good) :
    (e.lower s).1.Knows good ∧ (e.lower s).2.Knows good := by
  induction e generalizing s with
  | int text => exact ⟨fun type ht => Option.some.inj ht ▸ hint, hs⟩
  | float text => exact ⟨fun type ht => Option.some.inj ht ▸ hfloat, hs⟩
  | name line text =>
    unfold lower
    split
    · rename_i type hg
      refine ⟨fun other ht => ?_, hs⟩
      obtain rfl := Option.some.inj ht
      exact hs.entries (text, type) (SymbolTable.get?_eq_some_iff.1 hg)
    · exact ⟨fun type ht => absurd ht (by simp), hs.addError line (by simp)⟩
  | binary op line left right ihl ihr =>
    obtain ⟨ha, hleft⟩ := ihl hs
    obtain ⟨hb, hright⟩ := ihr hleft
    rw [lower]
    exact ⟨Operand.knows_resultType hint ha hb op _, (hright.checkTypes line ha hb).emitFresh _⟩

theorem Expr.knows_lowerValue (e : Expr) (hs : s.Knows good) : (e.lowerValue s).2.Knows good := by
  have h := (e.knows_lower hint hfloat hs).2
  unfold lowerValue
  dsimp only
  split
  · exact h
  · exact h.emitFresh _

theorem knows_lowerOperand (e : Option Expr) (hs : s.Knows good) :
    (∀ a ∈ (lowerOperand e s).1, a.Knows good) ∧ (lowerOperand e s).2.Knows good := by
  cases e with
  | none => exact ⟨fun a ha => absurd ha (by simp [lowerOperand]), hs⟩
  | some e =>
    obtain ⟨ha, hs⟩ := e.knows_lower hint hfloat hs
    exact ⟨fun a h => Option.some.inj h ▸ ha, hs⟩

theorem Guard.knows_lower (guard : Guard) (hs : s.Knows good) : (guard.lower s).2.Knows good := by
  cases guard with
  | compare op line left right =>
    obtain ⟨ha, hleft⟩ := knows_lowerOperand hint hfloat left hs
    obtain ⟨hb, hright⟩ := knows_lowerOperand hint hfloat right hleft
    rw [lower_compare]
    exact (hright.compared line ha hb).emit _
  | truth value =>
    cases value with
    | none => exact hs.emit _
    | some value => exact (value.knows_lowerValue hint hfloat hs).emit _

theorem Guard.exists_knows (guard : Guard) (hs : s.Knows good) :
    ∃ t jump, Lowering.Knows good t ∧ guard.lower s = (t.nextLine, t.emit jump) := by
  obtain ⟨t, jump, -, he⟩ := guard.exists_lower_eq s
  have ht := guard.knows_lower hint hfloat hs
  rw [he] at ht
  exact ⟨t, jump, ⟨ht.entries, ht.errors⟩, he⟩

/-! ## Names and stores -/

theorem Lowering.Knows.store (hs : s.Knows good) (name : String) (value : Option Expr) :
    (s.store name value).Knows good := by
  cases value with
  | none => exact hs
  | some value => exact (value.knows_lowerValue hint hfloat hs).emit _

theorem Assignment.knows_lower (assignment : Assignment) (hs : s.Knows good) :
    (assignment.lower s).Knows good := by
  unfold lower
  split
  · split
    · exact hs.addError _ (by simp)
    · exact hs.store hint hfloat _ _
  · exact hs.addError _ (by simp)

theorem Assignment.knows_lowerStep (step : Option Assignment) (hs : s.Knows good) :
    (lowerStep step s).Knows good := by
  cases step with
  | none => exact hs
  | some assignment => exact assignment.knows_lower hint hfloat hs

theorem Declaration.knows_lower (declaration : Declaration) (ht : good declaration.type)
    (hs : s.Knows good) : (declaration.lower s).Knows good := by
  unfold lower
  split
  · exact hs.addError _ (by simp)
  · rename_i symbols hi
    have hdeclared := (hs.declare ht hi).addErrors fun _ =>
      Declarator.isDeclarative_of_mem_accepted (d := .declare declaration)
    dsimp only
    split
    · exact hdeclared
    · split
      · exact hdeclared.addError _ (by simp)
      · exact hdeclared.store hint hfloat _ _

omit hint hfloat in
theorem StructDefinition.knows_lower (definition : StructDefinition) (ht : good definition.type)
    (hs : s.Knows good) : (definition.lower s).Knows good := by
  have hmembers : ∀ error ∈ (members definition.name [] definition.fields).2,
      error.isDeclarative = true := fun _ =>
    Declarator.isDeclarative_of_mem_accepted (d := .define definition)
  unfold lower
  dsimp only
  split
  · exact (hs.addErrors hmembers).addError _ (by simp)
  · rename_i symbols hi
    exact (hs.declare ht hi).addErrors hmembers

omit hint hfloat

/-! ## Control flow -/

namespace Statement

mutual

theorem knows_lower (hint : good .int) (hfloat : good .float) :
    ∀ (statement : Statement) {s : Lowering},
    (∀ d ∈ statement.declarators, good d.declared.type) → s.Knows good →
      (statement.lower s).Knows good
  | .declare declaration, s, h, hs => by
    rw [lower]
    exact declaration.knows_lower hint hfloat (h (.declare declaration) List.mem_cons_self) hs
  | .assign assignment, s, _, hs => by
    rw [lower]
    exact assignment.knows_lower hint hfloat hs
  | .define definition, s, h, hs => by
    rw [lower]
    exact definition.knows_lower (h (.define definition) List.mem_cons_self) hs
  | .ifThen guard body, s, h, hs => by
    obtain ⟨t, jump, ht, he⟩ := guard.exists_knows hint hfloat hs
    rw [lower_ifThen he]
    exact (knows_lowerList hint hfloat body h (ht.guarded jump)).patch _ _
  | .ifElse guard body otherwise, s, h, hs => by
    rw [declarators, List.forall_mem_append] at h
    obtain ⟨t, jump, ht, he⟩ := guard.exists_knows hint hfloat hs
    have hb := knows_lowerList hint hfloat body h.1 (ht.guarded jump)
    have hfirst : (afterFirst t jump body).Knows good := (hb.emit _).patch _ _
    rw [lower_ifElse he]
    exact (knows_lowerList hint hfloat otherwise h.2 hfirst).patch _ _
  | .loop guard body step, s, h, hs => by
    obtain ⟨t, jump, ht, he⟩ := guard.exists_knows hint hfloat hs
    have hb := knows_lowerList hint hfloat body h (ht.guarded jump)
    rw [lower_loop he]
    exact ((Assignment.knows_lowerStep hint hfloat step hb).emit _).patch _ _
  | .doWhile body none, s, h, hs => by
    rw [lower]
    exact knows_lowerList hint hfloat body h hs
  | .doWhile body (some guard), s, h, hs => by
    obtain ⟨t, jump, ht, he⟩ := guard.exists_knows hint hfloat (knows_lowerList hint hfloat body h hs)
    rw [lower_doWhile he]
    exact (ht.emit jump).patch _ _

theorem knows_lowerList (hint : good .int) (hfloat : good .float) :
    ∀ (statements : List Statement) {s : Lowering},
    (∀ d ∈ allDeclarators statements, good d.declared.type) → s.Knows good →
      (lowerList statements s).Knows good
  | [], s, _, hs => by
    rw [lowerList]
    exact hs
  | statement :: rest, s, h, hs => by
    rw [allDeclarators, List.forall_mem_append] at h
    rw [lowerList]
    exact knows_lowerList hint hfloat rest h.2 (knows_lower hint hfloat statement h.1 hs)

end

end Statement

/-- What the declared types and those of literals have in common, all types in the symbol table and
in mismatches have. -/
theorem knows_analyze (hint : good .int) (hfloat : good .float) {program : List Statement}
    (h : ∀ d ∈ Statement.allDeclarators program, good d.declared.type) :
    (analyze program).Knows good :=
  Statement.knows_lowerList hint hfloat program h (.initial good)

end
end FrontEnd
