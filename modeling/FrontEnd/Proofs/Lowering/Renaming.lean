import FrontEnd.Proofs.Lowering.Declarations
import FrontEnd.Proofs.Program.Renaming

/-! # Lowering and renaming

A program with other names is lowered to the same code with other names: literals and temporaries
stay, and names are only ever compared with each other.

* `Ty.rename`, `Instruction.rename`, `SemanticError.rename`: other names in what lowering makes.
* `Ty.rename_inj`: types with other names are equal only if the types were.
* `Lowering.Renamed`: a state with other names.
* `Expr.renamed_lower`, `Guard.exists_renamed`, `Statement.renamed_lowerList`: lowering keeps two
  states alike.
-/

namespace FrontEnd
set_option autoImplicit false

variable (r : Renaming)

/-! ## Types -/

namespace Ty

mutual

/-- Other names of fields. -/
def rename (r : Renaming) : Ty → Ty
  | primitive name => primitive name
  | array size element => array size (element.rename r)
  | record fields => record (renameFields r fields)

def renameFields (r : Renaming) : List (String × Ty) → List (String × Ty)
  | [] => []
  | (name, type) :: fields => (r name, type.rename r) :: renameFields r fields

end

theorem renameFields_eq (fields : List (String × Ty)) :
    renameFields r fields = fields.map fun field => (r field.1, field.2.rename r) := by
  induction fields with
  | nil => rfl
  | cons field fields ih => rw [renameFields, ih, List.map_cons]

theorem rename_arrayOf (name : String) (sizes : List Nat) :
    (arrayOf (primitive name) sizes).rename r = arrayOf (primitive name) sizes := by
  induction sizes with
  | nil => rfl
  | cons size sizes ih => exact congrArg (array size) ih

theorem isArray_rename (type : Ty) : (type.rename r).isArray = type.isArray := by
  cases type <;> rfl

variable {r}

mutual

theorem rename_inj : ∀ a b : Ty, a.rename r = b.rename r → a = b
  | primitive name, primitive other, h => h
  | array size a, array size' b, h => by
    rw [rename, rename] at h
    obtain ⟨rfl, hab⟩ := array.inj h
    rw [rename_inj a b hab]
  | record fs, record gs, h => by
    rw [rename, rename] at h
    rw [renameFields_inj fs gs (record.inj h)]
  | primitive _, array _ _, h | primitive _, record _, h | array _ _, primitive _, h
  | array _ _, record _, h | record _, primitive _, h | record _, array _ _, h => by
    simp [rename] at h

theorem renameFields_inj : ∀ fs gs : List (String × Ty),
    renameFields r fs = renameFields r gs → fs = gs
  | [], [], _ => rfl
  | (f, a) :: fs, (g, b) :: gs, h => by
    rw [renameFields, renameFields] at h
    obtain ⟨hhead, htail⟩ := List.cons.inj h
    obtain ⟨hname, htype⟩ := Prod.mk.inj hhead
    rw [r.injective hname, rename_inj a b htype, renameFields_inj fs gs htail]
  | [], (_, _) :: _, h | (_, _) :: _, [], h => by simp [renameFields] at h

end

end Ty

/-! ## Code and complaints -/

/-- Other operands and results; operators and targets stay. -/
def Instruction.rename (r : Renaming) : Instruction → Instruction
  | copy source result => copy (r source) (r result)
  | binary op left right result => binary op (r left) (r right) (r result)
  | jump target => jump target
  | jumpIf op left right target => jumpIf op (r left) (r right) target
  | jumpNonZero condition target => jumpNonZero (r condition) target

theorem Instruction.rename_patch (line : Nat) (instruction : Instruction) :
    (instruction.patch line).rename r = (instruction.rename r).patch line := by
  cases instruction <;> rfl

def SemanticFault.rename (r : Renaming) : SemanticFault → SemanticFault
  | redeclaration name => redeclaration (r name)
  | undeclared name => undeclared (r name)
  | suffixedTarget name => suffixedTarget (r name)
  | initializedArray name => initializedArray (r name)
  | invalidSize literal name => invalidSize literal (r name)
  | duplicateField field definition => duplicateField (r field) (r definition)
  | typeMismatch left right => typeMismatch (left.rename r) (right.rename r)

/-- The line stays. -/
def SemanticError.rename (r : Renaming) (error : SemanticError) : SemanticError :=
  ⟨error.line, error.fault.rename r⟩

def Operand.rename (r : Renaming) (operand : Operand) : Operand :=
  ⟨r operand.place, operand.type.map (.rename r), operand.computed⟩

theorem Operand.computed_rename (operand : Operand) :
    (operand.rename r).computed = operand.computed := rfl

theorem placeOrZero_rename (operand : Option Operand) :
    placeOrZero (operand.map (.rename r)) = r (placeOrZero operand) := by
  cases operand with
  | none => exact r.zero.symm
  | some operand => rfl

theorem resultType_rename (op : String) (a b : Operand) :
    resultType op (a.rename r) (b.rename r) = (resultType op a b).map (.rename r) := by
  unfold resultType
  split
  · rfl
  · unfold Operand.rename
    cases a.type <;> rfl

theorem Suffix.errors_rename (name : String) (suffixes : List Suffix) :
    errors (r name) suffixes = (errors name suffixes).map (.rename r) := by
  rw [errors, errors, List.map_map]
  rfl

theorem Declaration.type_rename (declaration : Declaration) :
    (declaration.rename r).type = declaration.type.rename r :=
  (Ty.rename_arrayOf r _ _).symm

/-- Fields have the same name only if they had. -/
theorem StructDefinition.members_rename (definition : String) (taken : List (String × Ty))
    (fields : List Field) :
    members (r definition) (Ty.renameFields r taken) (fields.map (.rename r)) =
      (Ty.renameFields r (members definition taken fields).1,
        (members definition taken fields).2.map (.rename r)) := by
  induction fields generalizing taken with
  | nil => rfl
  | cons field fields ih =>
    have hany : (Ty.renameFields r taken).any (·.1 == (field.rename r).name) =
        taken.any (·.1 == field.name) := by
      rw [Ty.renameFields_eq, List.any_map]
      exact congrArg taken.any (funext fun other => r.beq_eq other.1 field.name)
    rw [List.map_cons, members, members, hany]
    split
    · rw [ih]
      rfl
    · rw [← ih, Ty.renameFields_eq, Ty.renameFields_eq, List.map_append]
      rfl

/-! ## States -/

/-- The state `t` is `s` with other names. -/
structure Lowering.Renamed (s t : Lowering) : Prop where
  entries : t.symbols.entries = Ty.renameFields r s.symbols.entries
  instructions : t.code.instructions = s.code.instructions.map (.rename r)
  errors : t.errors = s.errors.map (.rename r)
  nextTemporary : t.nextTemporary = s.nextTemporary

variable {r} {s t : Lowering}

namespace Lowering.Renamed

theorem initial (r : Renaming) : Renamed r .initial .initial :=
  ⟨rfl, (Array.map_empty ..).symm, rfl, rfl⟩

variable (h : Renamed r s t)
include h

theorem names : t.symbols.names = s.symbols.names.map r := by
  rw [SymbolTable.names, h.entries, Ty.renameFields_eq, SymbolTable.names, List.map_map,
    List.map_map]
  rfl

theorem mem_names_iff (name : String) : r name ∈ t.symbols.names ↔ name ∈ s.symbols.names := by
  rw [h.names, List.mem_map_of_injective r.injective]

theorem contains (name : String) : t.symbols.contains (r name) = s.symbols.contains name := by
  rw [Bool.eq_iff_iff, SymbolTable.contains_iff, SymbolTable.contains_iff, h.mem_names_iff]

theorem get? (name : String) :
    t.symbols.get? (r name) = (s.symbols.get? name).map (.rename r) := by
  refine Option.ext fun type => ?_
  rw [SymbolTable.get?_eq_some_iff, h.entries, Ty.renameFields_eq, List.mem_map,
    Option.map_eq_some_iff]
  constructor
  · rintro ⟨entry, he, hentry⟩
    obtain ⟨hname, rfl⟩ := Prod.mk.inj hentry
    obtain rfl := r.injective hname
    exact ⟨entry.2, SymbolTable.get?_eq_some_iff.2 he, rfl⟩
  · rintro ⟨found, hf, rfl⟩
    exact ⟨(name, found), SymbolTable.get?_eq_some_iff.1 hf, rfl⟩

theorem nextLine : t.nextLine = s.nextLine := by
  rw [Lowering.nextLine, Code.nextLine, Code.size, h.instructions, Array.size_map]
  rfl

theorem addErrors (errors : List SemanticError) :
    Renamed r { s with errors := s.errors ++ errors }
      { t with errors := t.errors ++ errors.map (.rename r) } :=
  ⟨h.entries, h.instructions, by rw [h.errors, List.map_append], h.nextTemporary⟩

theorem addError (line : Nat) (fault : SemanticFault) :
    Renamed r (s.addError line fault) (t.addError line (fault.rename r)) :=
  h.addErrors [⟨line, fault⟩]

theorem emit (instruction : Instruction) :
    Renamed r (s.emit instruction) (t.emit (instruction.rename r)) := by
  refine ⟨h.entries, ?_, h.errors, h.nextTemporary⟩
  change t.code.instructions.push _ = (s.code.instructions.push instruction).map _
  rw [h.instructions, Array.map_push]

theorem patch (line target : Nat) : Renamed r (s.patch line target) (t.patch line target) := by
  refine ⟨h.entries, ?_, h.errors, h.nextTemporary⟩
  change (t.code.patch line target).instructions = (s.code.patch line target).instructions.map _
  unfold Code.patch
  split
  · exact h.instructions
  · refine Array.ext_getElem? fun index => ?_
    rw [h.instructions, Array.getElem?_modify, Array.getElem?_map, Array.getElem?_map,
      Array.getElem?_modify]
    split
    · rw [Option.map_map, Option.map_map]
      exact congrArg (Option.map · _) (funext fun instruction =>
        (instruction.rename_patch r target).symm)
    · rfl

/-- Temporaries have the same names in both. -/
theorem emitFresh (instruction renamed : String → Instruction)
    (hi : ∀ name, renamed (r name) = (instruction name).rename r) :
    (t.emitFresh renamed).1 = r (s.emitFresh instruction).1 ∧
      Renamed r (s.emitFresh instruction).2 (t.emitFresh renamed).2 := by
  have hname : temporary t.nextTemporary = r (temporary s.nextTemporary) := by
    rw [h.nextTemporary, r.temporary]
  have hemit : Renamed r (s.emit (instruction (temporary s.nextTemporary)))
      (t.emit (renamed (temporary t.nextTemporary))) := by
    rw [hname, hi]
    exact h.emit _
  exact ⟨hname, hemit.entries, hemit.instructions, hemit.errors,
    congrArg (· + 1) h.nextTemporary⟩

theorem checkTypes (line : Nat) (a b : Operand) :
    Renamed r (s.checkTypes line a b) (t.checkTypes line (a.rename r) (b.rename r)) := by
  obtain ⟨-, left, -⟩ := a
  obtain ⟨-, right, -⟩ := b
  match left, right with
  | none, none | some _, none | none, some _ => exact h
  | some left, some right =>
    by_cases he : left = right
    · simpa [Lowering.checkTypes, Operand.rename, he] using h
    · have hr : left.rename r ≠ right.rename r := mt (Ty.rename_inj left right) he
      simpa [Lowering.checkTypes, Operand.rename, SemanticFault.rename, he, hr] using
        h.addError line (.typeMismatch left right)

theorem compared (line : Nat) (a b : Option Operand) :
    Renamed r (s.compared line a b) (t.compared line (a.map (.rename r)) (b.map (.rename r))) := by
  match a, b with
  | some a, some b => exact h.checkTypes line a b
  | some _, none | none, some _ | none, none => exact h

theorem guarded (jump : Instruction) :
    Renamed r (s.guarded jump) (t.guarded (jump.rename r)) := by
  unfold Lowering.guarded
  rw [h.nextLine]
  exact ((h.emit jump).emit (.jump none)).patch _ _

/-- A name is declared in both states or in none. -/
theorem insert? (name : String) (type : Ty) :
    (s.symbols.insert? name type = none ∧ t.symbols.insert? (r name) (type.rename r) = none) ∨
      ∃ symbols renamed, s.symbols.insert? name type = some symbols ∧
        t.symbols.insert? (r name) (type.rename r) = some renamed ∧
          Renamed r { s with symbols } { t with symbols := renamed } := by
  by_cases hm : name ∈ s.symbols.names
  · exact Or.inl ⟨SymbolTable.insert?_eq_none_iff.2 hm,
      SymbolTable.insert?_eq_none_iff.2 ((h.mem_names_iff name).2 hm)⟩
  · obtain ⟨symbols, hs⟩ :=
      Option.ne_none_iff_exists'.1 (mt SymbolTable.insert?_eq_none_iff.1 hm)
    obtain ⟨renamed, ht⟩ := Option.ne_none_iff_exists'.1
      (mt SymbolTable.insert?_eq_none_iff.1 (mt (h.mem_names_iff name).1 hm))
    refine Or.inr ⟨symbols, renamed, hs, ht, ?_, h.instructions, h.errors, h.nextTemporary⟩
    dsimp only
    rw [SymbolTable.entries_of_insert? ht, SymbolTable.entries_of_insert? hs, h.entries,
      Ty.renameFields_eq, Ty.renameFields_eq, List.map_append]
    rfl

end Lowering.Renamed

/-! ## Expressions -/

theorem Expr.renamed_lower (e : Expr) (h : Lowering.Renamed r s t) :
    ((e.rename r).lower t).1 = (e.lower s).1.rename r ∧
      Lowering.Renamed r (e.lower s).2 ((e.rename r).lower t).2 := by
  induction e generalizing s t with
  | int text => exact ⟨rfl, h⟩
  | float text => exact ⟨rfl, h⟩
  | name line text =>
    rw [rename, lower, lower, h.get?]
    cases s.symbols.get? text with
    | none => exact ⟨rfl, h.addError line (.undeclared text)⟩
    | some type => exact ⟨rfl, h⟩
  | binary op line left right ihl ihr =>
    obtain ⟨ha, hleft⟩ := ihl h
    obtain ⟨hb, hright⟩ := ihr hleft
    rw [rename, lower, lower]
    dsimp only
    rw [ha, hb]
    generalize (left.lower s).1 = a, (right.lower (left.lower s).2).1 = b
    obtain ⟨hplace, hfresh⟩ := (hright.checkTypes line a b).emitFresh
      (.binary op a.place b.place) (.binary op (r a.place) (r b.place)) fun _ => rfl
    refine ⟨?_, hfresh⟩
    rw [resultType_rename]
    exact congrArg (fun place => (⟨place, _, true⟩ : Operand)) hplace

theorem Expr.renamed_lowerValue (e : Expr) (h : Lowering.Renamed r s t) :
    ((e.rename r).lowerValue t).1 = r (e.lowerValue s).1 ∧
      Lowering.Renamed r (e.lowerValue s).2 ((e.rename r).lowerValue t).2 := by
  obtain ⟨hoperand, hlowered⟩ := e.renamed_lower h
  unfold lowerValue
  dsimp only
  rw [hoperand, Operand.computed_rename]
  split
  · exact ⟨rfl, hlowered⟩
  · exact hlowered.emitFresh (.copy (e.lower s).1.place) (.copy (r (e.lower s).1.place)) fun _ => rfl

theorem renamed_lowerOperand (e : Option Expr) (h : Lowering.Renamed r s t) :
    (lowerOperand (e.map (.rename r)) t).1 = (lowerOperand e s).1.map (.rename r) ∧
      Lowering.Renamed r (lowerOperand e s).2 (lowerOperand (e.map (.rename r)) t).2 := by
  cases e with
  | none => exact ⟨rfl, h⟩
  | some e => exact (e.renamed_lower h).imp_left (congrArg some)

/-- Both guards end in the same jump, with other names in one. -/
theorem Guard.exists_renamed (guard : Guard) (h : Lowering.Renamed r s t) :
    ∃ s' t' jump, Lowering.Renamed r s' t' ∧ guard.lower s = (s'.nextLine, s'.emit jump) ∧
      (guard.rename r).lower t = (t'.nextLine, t'.emit (jump.rename r)) := by
  cases guard with
  | compare op line left right =>
    obtain ⟨ha, hleft⟩ := renamed_lowerOperand left h
    obtain ⟨hb, hright⟩ := renamed_lowerOperand right hleft
    refine ⟨_, _, _, hright.compared line _ _, lower_compare .., ?_⟩
    rw [rename, lower_compare]
    dsimp only
    rw [ha, hb, placeOrZero_rename, placeOrZero_rename]
    rfl
  | truth value =>
    cases value with
    | none =>
      refine ⟨s, t, .jumpNonZero "0" none, h, rfl, ?_⟩
      rw [Instruction.rename, r.zero]
      rfl
    | some value =>
      obtain ⟨hplace, hlowered⟩ := value.renamed_lowerValue h
      refine ⟨_, _, .jumpNonZero (value.lowerValue s).1 none, hlowered, rfl, ?_⟩
      rw [Instruction.rename, ← hplace]
      rfl

/-! ## Names and stores -/

theorem Lowering.Renamed.store (h : Renamed r s t) (name : String) (value : Option Expr) :
    Renamed r (s.store name value) (t.store (r name) (value.map (.rename r))) := by
  cases value with
  | none => exact h
  | some value =>
    obtain ⟨hplace, hlowered⟩ := value.renamed_lowerValue h
    have hemit := hlowered.emit (.copy (value.lowerValue s).1 name)
    rw [Instruction.rename, ← hplace] at hemit
    exact hemit

theorem Assignment.renamed_lower (assignment : Assignment) (h : Lowering.Renamed r s t) :
    Lowering.Renamed r (assignment.lower s) ((assignment.rename r).lower t) := by
  obtain ⟨line, name, right⟩ := assignment
  rw [rename, lower, lower, h.contains]
  split
  · cases right with
    | suffix => exact h.addError line (.suffixedTarget name)
    | value value => exact h.store name value
  · exact h.addError line (.undeclared name)

theorem Assignment.renamed_lowerStep (step : Option Assignment) (h : Lowering.Renamed r s t) :
    Lowering.Renamed r (lowerStep step s) (lowerStep (step.map (.rename r)) t) := by
  cases step with
  | none => exact h
  | some assignment => exact assignment.renamed_lower h

theorem Declaration.renamed_lower (declaration : Declaration) (h : Lowering.Renamed r s t) :
    Lowering.Renamed r (declaration.lower s) ((declaration.rename r).lower t) := by
  have hname : (declaration.rename r).name = r declaration.name := rfl
  have hinitializer : (declaration.rename r).initializer =
      declaration.initializer.map (Option.map (.rename r)) := rfl
  unfold lower
  rw [declaration.type_rename r, hname, hinitializer]
  rcases h.insert? declaration.name declaration.type with
    ⟨hs, ht⟩ | ⟨symbols, renamed, hs, ht, hdeclared⟩
  · rw [hs, ht]
    exact h.addError declaration.line (.redeclaration declaration.name)
  · have hsizes := hdeclared.addErrors (Suffix.errors declaration.name declaration.suffixes)
    rw [← Suffix.errors_rename] at hsizes
    rw [hs, ht]
    cases declaration.initializer with
    | none => exact hsizes
    | some value =>
      rw [Option.map_some]
      dsimp only
      rw [Ty.isArray_rename]
      split
      · exact hsizes.addError declaration.line (.initializedArray declaration.name)
      · exact hsizes.store declaration.name value

theorem StructDefinition.renamed_lower (definition : StructDefinition)
    (h : Lowering.Renamed r s t) :
    Lowering.Renamed r (definition.lower s) ((definition.rename r).lower t) := by
  have hmembers : members (r definition.name) [] (definition.rename r).fields = _ :=
    members_rename r definition.name [] definition.fields
  have hname : (definition.rename r).name = r definition.name := rfl
  have herrors := h.addErrors (members definition.name [] definition.fields).2
  have hinsert := herrors.insert? definition.name
    (.record (members definition.name [] definition.fields).1)
  rw [Ty.rename] at hinsert
  unfold lower
  rw [hname, hmembers]
  dsimp only at hinsert ⊢
  rcases hinsert with ⟨hs, ht⟩ | ⟨symbols, renamed, hs, ht, hdeclared⟩
  · rw [hs, ht]
    exact herrors.addError definition.line (.redeclaration definition.name)
  · rw [hs, ht]
    exact hdeclared

/-! ## Control flow -/

namespace Statement

mutual

theorem renamed_lower : ∀ (statement : Statement) {s t : Lowering}, Lowering.Renamed r s t →
    Lowering.Renamed r (statement.lower s) ((statement.rename r).lower t)
  | .declare declaration, s, t, h => by
    rw [rename, lower, lower]
    exact declaration.renamed_lower h
  | .assign assignment, s, t, h => by
    rw [rename, lower, lower]
    exact assignment.renamed_lower h
  | .define definition, s, t, h => by
    rw [rename, lower, lower]
    exact definition.renamed_lower h
  | .ifThen guard body, s, t, h => by
    obtain ⟨s', t', jump, h', he, hr⟩ := guard.exists_renamed h
    have hb := renamed_lowerList body (h'.guarded jump)
    rw [rename, lower_ifThen he, lower_ifThen hr, hb.nextLine, h'.nextLine]
    exact hb.patch _ _
  | .ifElse guard body otherwise, s, t, h => by
    obtain ⟨s', t', jump, h', he, hr⟩ := guard.exists_renamed h
    have hb := renamed_lowerList body (h'.guarded jump)
    have hfirst : Lowering.Renamed r (afterFirst s' jump body)
        (afterFirst t' (jump.rename r) (renameAll r body)) := by
      unfold afterFirst
      rw [hb.nextLine, h'.nextLine]
      exact (hb.emit (.jump none)).patch _ _
    have ho := renamed_lowerList otherwise hfirst
    rw [rename, lower_ifElse he, lower_ifElse hr, ho.nextLine, hb.nextLine]
    exact ho.patch _ _
  | .loop guard body step, s, t, h => by
    obtain ⟨s', t', jump, h', he, hr⟩ := guard.exists_renamed h
    have hb := renamed_lowerList body (h'.guarded jump)
    have hstep := Assignment.renamed_lowerStep step hb
    rw [rename, lower_loop he, lower_loop hr, hstep.nextLine, h'.nextLine, h.nextLine]
    exact (hstep.emit (.jump (some s.nextLine))).patch _ _
  | .doWhile body none, s, t, h => by
    rw [rename, Option.map_none, lower, lower]
    exact renamed_lowerList body h
  | .doWhile body (some guard), s, t, h => by
    obtain ⟨s', t', jump, h', he, hr⟩ := guard.exists_renamed (renamed_lowerList body h)
    rw [rename, Option.map_some, lower_doWhile he, lower_doWhile hr, h'.nextLine, h.nextLine]
    exact (h'.emit jump).patch _ _

theorem renamed_lowerList : ∀ (statements : List Statement) {s t : Lowering},
    Lowering.Renamed r s t →
      Lowering.Renamed r (lowerList statements s) (lowerList (renameAll r statements) t)
  | [], s, t, h => by
    rw [renameAll, lowerList, lowerList]
    exact h
  | statement :: rest, s, t, h => by
    rw [renameAll, lowerList, lowerList]
    exact renamed_lowerList rest (renamed_lower statement h)

end

end Statement

/-- The same program with other names makes the same code with other names. -/
theorem renamed_analyze (r : Renaming) (program : List Statement) :
    Lowering.Renamed r (analyze program) (analyze (program.map (.rename r))) := by
  rw [analyze, analyze, ← Statement.renameAll_eq]
  exact Statement.renamed_lowerList program (.initial r)

end FrontEnd
