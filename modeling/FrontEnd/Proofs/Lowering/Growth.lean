import FrontEnd.Compilation
import FrontEnd.Proofs.Code.Machine

/-! # Lowering only adds

Whatever is lowered, the code, the symbols and the complaints that were there stay as they were, and
no temporary is used again. What is added stands on its own: no jump in it is left without a target,
and none leads out of it, other than to the line behind it.

* `Lowering.Extends`: one state comes after another in this sense.
* `Lowering.Extends.patch`: patching a later line does no harm.
* `Lowering.Adds`: besides, only the jumps on some lines still lack a target.
* `Lowering.Adds.emitOpen`, `Lowering.Adds.patch`: a line is added to these, or taken from them.
* `Expr.adds_lower`, `Guard.exists_lower_eq`, `Statement.adds_lower`: all lowering adds and leaves
  no line without a target.
* `lowering_appends`: what this says of the statements in a tree.
-/

namespace FrontEnd
set_option autoImplicit false

namespace Lowering

structure Extends (s t : Lowering) : Prop where
  nextLine : s.nextLine ≤ t.nextLine
  get? : ∀ line, line < s.nextLine → t.code.get? line = s.code.get? line
  nextTemporary : s.nextTemporary ≤ t.nextTemporary
  errors : s.errors <+: t.errors
  symbols : s.symbols.entries <+: t.symbols.entries

namespace Extends
variable {s t u : Lowering}

theorem refl (s : Lowering) : s.Extends s :=
  ⟨Nat.le_refl _, fun _ _ => rfl, Nat.le_refl _, List.prefix_rfl, List.prefix_rfl⟩

theorem trans (h : s.Extends t) (h' : t.Extends u) : s.Extends u where
  nextLine := Nat.le_trans h.nextLine h'.nextLine
  get? := fun line hl =>
    (h'.get? line (Nat.lt_of_lt_of_le hl h.nextLine)).trans (h.get? line hl)
  nextTemporary := Nat.le_trans h.nextTemporary h'.nextTemporary
  errors := h.errors.trans h'.errors
  symbols := h.symbols.trans h'.symbols

theorem errors_eq_nil (h : s.Extends t) (ht : t.errors = []) : s.errors = [] := by
  have he := h.errors
  rw [ht] at he
  exact List.prefix_nil.1 he

theorem patch (h : s.Extends t) {line : Nat} (hl : s.nextLine ≤ line) (target : Nat) :
    s.Extends (t.patch line target) where
  nextLine := Nat.le_trans h.nextLine (Nat.le_of_eq (Code.nextLine_patch ..).symm)
  get? := fun other ho =>
    (Code.get?_patch_of_ne _ (by omega) _).trans (h.get? other ho)
  nextTemporary := h.nextTemporary
  errors := h.errors
  symbols := h.symbols

end Extends

/-! ## Single operations -/

variable (s : Lowering)

theorem nextLine_emit (instruction : Instruction) :
    (s.emit instruction).nextLine = s.nextLine + 1 :=
  Code.nextLine_emit _ _

theorem nextLine_lt_emitFresh (instruction : String → Instruction) :
    s.nextLine < (s.emitFresh instruction).2.nextLine := by
  have h : (s.emitFresh instruction).2.nextLine = s.nextLine + 1 := s.nextLine_emit _
  omega

theorem nextLine_patch (line target : Nat) : (s.patch line target).nextLine = s.nextLine :=
  Code.nextLine_patch ..

theorem get?_emit (instruction : Instruction) (line : Nat) :
    (s.emit instruction).code.get? line =
      if line = s.nextLine then some instruction else s.code.get? line :=
  Code.get?_emit ..

theorem get?_patch (line target other : Nat) :
    (s.patch line target).code.get? other =
      if other = line then (s.code.get? other).map (Instruction.patch target)
      else s.code.get? other :=
  Code.get?_patch ..

theorem get?_emit_self (instruction : Instruction) :
    (s.emit instruction).code.get? s.nextLine = some instruction :=
  (s.get?_emit ..).trans (if_pos rfl)

theorem extends_emit (instruction : Instruction) : s.Extends (s.emit instruction) where
  nextLine := by rw [nextLine_emit]; exact Nat.le_succ _
  get? := fun line hl => (s.get?_emit ..).trans (if_neg (Nat.ne_of_lt hl))
  nextTemporary := Nat.le_refl _
  errors := List.prefix_rfl
  symbols := List.prefix_rfl

theorem extends_emitFresh (instruction : String → Instruction) :
    s.Extends (s.emitFresh instruction).2 where
  nextLine := (s.extends_emit _).nextLine
  get? := (s.extends_emit _).get?
  nextTemporary := Nat.le_succ _
  errors := List.prefix_rfl
  symbols := List.prefix_rfl

theorem extends_addError (line : Nat) (fault : SemanticFault) :
    s.Extends (s.addError line fault) where
  nextLine := Nat.le_refl _
  get? := fun _ _ => rfl
  nextTemporary := Nat.le_refl _
  errors := List.prefix_append ..
  symbols := List.prefix_rfl

theorem errors_addError_ne_nil (line : Nat) (fault : SemanticFault) :
    (s.addError line fault).errors ≠ [] := by
  simp [addError]

theorem extends_checkTypes (line : Nat) (left right : Operand) :
    s.Extends (s.checkTypes line left right) := by
  unfold checkTypes
  split
  · split
    · exact .refl s
    · exact s.extends_addError _ _
  · exact .refl s

/-- Complaints do not change the code. -/
theorem nextLine_checkTypes (line : Nat) (left right : Operand) :
    (s.checkTypes line left right).nextLine = s.nextLine := by
  unfold checkTypes
  split
  · split <;> rfl
  · rfl

theorem extends_declared {symbols : SymbolTable} (h : s.symbols.entries <+: symbols.entries)
    (errors : List SemanticError) :
    s.Extends { s with symbols, errors := s.errors ++ errors } where
  nextLine := Nat.le_refl _
  get? := fun _ _ => rfl
  nextTemporary := Nat.le_refl _
  errors := List.prefix_append ..
  symbols := h

/-- The state after two operands have been compared, if both are there. -/
def compared (line : Nat) : Option Operand → Option Operand → Lowering
  | some left, some right => s.checkTypes line left right
  | _, _ => s

theorem extends_compared (line : Nat) (left right : Option Operand) :
    s.Extends (s.compared line left right) := by
  unfold compared
  split
  · exact s.extends_checkTypes _ _ _
  · exact .refl s

theorem nextLine_compared (line : Nat) (left right : Option Operand) :
    (s.compared line left right).nextLine = s.nextLine := by
  unfold compared
  split
  · exact s.nextLine_checkTypes _ _ _
  · rfl

end Lowering

/-! ## Jump targets -/

/-- A jump has a target between these lines. -/
def Instruction.LeadsWithin (first last : Nat) : Instruction → Prop
  | jump target | jumpIf _ _ _ target | jumpNonZero _ target =>
    ∃ line, target = some line ∧ first ≤ line ∧ line ≤ last
  | copy .. | binary .. => True

theorem Instruction.LeadsWithin.mono {instruction : Instruction} {first last first' last' : Nat}
    (h : instruction.LeadsWithin first last) (hf : first' ≤ first) (hl : last ≤ last') :
    instruction.LeadsWithin first' last' := by
  cases instruction with
  | copy | binary => trivial
  | jump | jumpIf | jumpNonZero =>
    obtain ⟨line, he, hfirst, hlast⟩ := h
    exact ⟨line, he, Nat.le_trans hf hfirst, Nat.le_trans hlast hl⟩

theorem Instruction.leadsWithin_patch {first last line : Nat} (hf : first ≤ line)
    (hl : line ≤ last) (instruction : Instruction) :
    (instruction.patch line).LeadsWithin first last := by
  cases instruction with
  | copy | binary => trivial
  | jump | jumpIf | jumpNonZero => exact ⟨line, rfl, hf, hl⟩

namespace Lowering

/-- The jumps that were added since `s` have targets from the next line of `s` to that of `t`, apart
from those on the lines in `pending`. -/
structure Adds (s t : Lowering) (pending : List Nat) : Prop extends Extends s t where
  leadsWithin : ∀ line instruction, s.nextLine ≤ line → line ∉ pending →
    t.code.get? line = some instruction → instruction.LeadsWithin s.nextLine t.nextLine

/-- Where no code was added, there is no jump. -/
theorem Extends.adds {s t : Lowering} (h : s.Extends t) (hc : t.code = s.code) : s.Adds t [] where
  toExtends := h
  leadsWithin line instruction hl _ hi := by
    rw [hc, Code.get?_eq_none hl] at hi
    exact absurd hi (by simp)

namespace Adds
variable {s t u : Lowering} {pending later : List Nat}

theorem refl (s : Lowering) : s.Adds s [] := (Extends.refl s).adds rfl

theorem trans (h : s.Adds t pending) (h' : t.Adds u later) : s.Adds u (pending ++ later) where
  toExtends := h.toExtends.trans h'.toExtends
  leadsWithin line instruction hl hp hi := by
    rw [List.mem_append, not_or] at hp
    by_cases ht : line < t.nextLine
    · rw [h'.get? line ht] at hi
      exact (h.leadsWithin line instruction hl hp.1 hi).mono (Nat.le_refl _) h'.nextLine
    · exact (h'.leadsWithin line instruction (Nat.le_of_not_lt ht) hp.2 hi).mono h.nextLine
        (Nat.le_refl _)

theorem emit (h : s.Adds t pending) {instruction : Instruction}
    (hi : instruction.LeadsWithin s.nextLine (t.nextLine + 1)) :
    s.Adds (t.emit instruction) pending where
  toExtends := h.toExtends.trans (t.extends_emit instruction)
  leadsWithin line other hl hp ho := by
    rw [nextLine_emit]
    rw [get?_emit] at ho
    split at ho
    · obtain rfl := Option.some.inj ho
      exact hi
    · exact (h.leadsWithin line other hl hp ho).mono (Nat.le_refl _) (Nat.le_succ _)

/-- A jump may wait for its target. -/
theorem emitOpen (h : s.Adds t pending) (instruction : Instruction) :
    s.Adds (t.emit instruction) (pending ++ [t.nextLine]) where
  toExtends := h.toExtends.trans (t.extends_emit instruction)
  leadsWithin line other hl hp ho := by
    rw [List.mem_append, not_or, List.mem_singleton] at hp
    rw [nextLine_emit]
    rw [get?_emit, if_neg hp.2] at ho
    exact (h.leadsWithin line other hl hp.1 ho).mono (Nat.le_refl _) (Nat.le_succ _)

theorem emitFresh (h : s.Adds t pending) {instruction : String → Instruction}
    (hi : ∀ name, (instruction name).LeadsWithin s.nextLine (t.nextLine + 1)) :
    s.Adds (t.emitFresh instruction).2 pending where
  toExtends := h.toExtends.trans (t.extends_emitFresh instruction)
  leadsWithin := (h.emit (hi _)).leadsWithin

/-- The jump that has waited longest gets its target. -/
theorem patch {line target : Nat} (h : s.Adds t (line :: pending)) (hl : s.nextLine ≤ line)
    (hs : s.nextLine ≤ target) (ht : target ≤ t.nextLine) :
    s.Adds (t.patch line target) pending where
  toExtends := h.toExtends.patch hl target
  leadsWithin other instruction ho hp hi := by
    rw [nextLine_patch]
    rw [get?_patch] at hi
    split at hi
    · obtain ⟨old, -, rfl⟩ := Option.map_eq_some_iff.1 hi
      exact Instruction.leadsWithin_patch hs ht old
    · rename_i hne
      exact h.leadsWithin other instruction ho (by simp [hne, hp]) hi

end Adds

/-! ## What adds no code -/

variable (s : Lowering)

theorem adds_addError (line : Nat) (fault : SemanticFault) : s.Adds (s.addError line fault) [] :=
  (s.extends_addError line fault).adds rfl

theorem adds_checkTypes (line : Nat) (left right : Operand) :
    s.Adds (s.checkTypes line left right) [] := by
  refine (s.extends_checkTypes line left right).adds ?_
  unfold checkTypes
  split
  · split <;> rfl
  · rfl

theorem adds_compared (line : Nat) (left right : Option Operand) :
    s.Adds (s.compared line left right) [] := by
  unfold compared
  split
  · exact s.adds_checkTypes _ _ _
  · exact .refl s

theorem adds_declared {symbols : SymbolTable} (h : s.symbols.entries <+: symbols.entries)
    (errors : List SemanticError) :
    s.Adds { s with symbols, errors := s.errors ++ errors } [] :=
  (s.extends_declared h errors).adds rfl

end Lowering

/-! ## Expressions -/

theorem Expr.adds_lower (e : Expr) (s : Lowering) : s.Adds (e.lower s).2 [] := by
  induction e generalizing s with
  | int text => exact .refl s
  | float text => exact .refl s
  | name line text =>
    unfold lower
    split
    · exact .refl s
    · exact s.adds_addError _ _
  | binary op line left right ihl ihr =>
    rw [lower]
    exact (((ihl s).trans (ihr _)).trans (Lowering.adds_checkTypes ..)).emitFresh fun _ => trivial

theorem Expr.adds_lowerValue (e : Expr) (s : Lowering) : s.Adds (e.lowerValue s).2 [] := by
  unfold lowerValue
  dsimp only
  split
  · exact e.adds_lower s
  · exact (e.adds_lower s).emitFresh fun _ => trivial

theorem adds_lowerOperand (e : Option Expr) (s : Lowering) : s.Adds (lowerOperand e s).2 [] := by
  cases e with
  | none => exact .refl s
  | some e => exact e.adds_lower s

theorem Guard.lower_compare (op : String) (line : Nat) (left right : Option Expr)
    (s : Lowering) :
    (compare op line left right).lower s =
      let a := lowerOperand left s
      let b := lowerOperand right a.2
      let t := b.2.compared line a.1 b.1
      (t.nextLine, t.emit (.jumpIf op (placeOrZero a.1) (placeOrZero b.1) none)) := rfl

/-- A guard ends in a jump that has no target yet. -/
theorem Guard.exists_lower_eq (guard : Guard) (s : Lowering) :
    ∃ t jump, s.Adds t [] ∧ guard.lower s = (t.nextLine, t.emit jump) := by
  cases guard with
  | compare op line left right =>
    have h := (adds_lowerOperand left s).trans (adds_lowerOperand right _)
    exact ⟨_, _, h.trans (Lowering.adds_compared ..), lower_compare op line left right s⟩
  | truth value =>
    cases value with
    | none => exact ⟨s, _, .refl s, rfl⟩
    | some value => exact ⟨_, _, value.adds_lowerValue s, rfl⟩

/-! ## Statements -/

theorem Lowering.adds_store (s : Lowering) (name : String) (value : Option Expr) :
    s.Adds (s.store name value) [] := by
  cases value with
  | none => exact .refl s
  | some value => exact (value.adds_lowerValue s).emit trivial

theorem Assignment.adds_lower (assignment : Assignment) (s : Lowering) :
    s.Adds (assignment.lower s) [] := by
  unfold lower
  split
  · split
    · exact s.adds_addError _ _
    · exact s.adds_store _ _
  · exact s.adds_addError _ _

/-- A new name stands behind the others. -/
theorem SymbolTable.entries_of_insert? {table other : SymbolTable} {name : String} {type : Ty}
    (h : table.insert? name type = some other) :
    other.entries = table.entries ++ [(name, type)] := by
  unfold insert? at h
  split at h
  · exact absurd h (by simp)
  · obtain rfl := Option.some.inj h
    rfl

theorem SymbolTable.prefix_of_insert? {table other : SymbolTable} {name : String} {type : Ty}
    (h : table.insert? name type = some other) : table.entries <+: other.entries := by
  rw [entries_of_insert? h]
  exact List.prefix_append ..

theorem Declaration.adds_lower (declaration : Declaration) (s : Lowering) :
    s.Adds (declaration.lower s) [] := by
  unfold lower
  split
  · exact s.adds_addError _ _
  · rename_i symbols h
    have hd := s.adds_declared (SymbolTable.prefix_of_insert? h)
      (Suffix.errors declaration.name declaration.suffixes)
    dsimp only
    split
    · exact hd
    · split
      · exact hd.trans (Lowering.adds_addError ..)
      · exact hd.trans (Lowering.adds_store ..)

theorem StructDefinition.adds_lower (definition : StructDefinition) (s : Lowering) :
    s.Adds (definition.lower s) [] := by
  unfold lower
  dsimp only
  have he := s.adds_declared List.prefix_rfl (members definition.name [] definition.fields).2
  split
  · exact he.trans (Lowering.adds_addError ..)
  · rename_i symbols h
    exact s.adds_declared (SymbolTable.prefix_of_insert? h) _

/-! ## Control flow -/

/-- The state behind a guard that ends in `jump` and behind the jump that is taken when the guard
fails. The guard leads behind both. -/
def Lowering.guarded (t : Lowering) (jump : Instruction) : Lowering :=
  ((t.emit jump).emit (.jump none)).patch t.nextLine (t.nextLine + 2)

/-- The jump behind the guard still waits for its target. -/
theorem Lowering.adds_guarded (t : Lowering) (jump : Instruction) :
    t.Adds (t.guarded jump) [t.nextLine + 1] := by
  have h := ((Adds.refl t).emitOpen jump).emitOpen (.jump none)
  rw [nextLine_emit] at h
  have hlast : ((t.emit jump).emit (.jump none)).nextLine = t.nextLine + 2 := by
    rw [nextLine_emit, nextLine_emit]
  exact h.patch (Nat.le_refl _) (Nat.le_add_right ..) (Nat.le_of_eq hlast.symm)

theorem Lowering.nextLine_guarded (t : Lowering) (jump : Instruction) :
    (t.guarded jump).nextLine = t.nextLine + 2 := by
  rw [guarded, nextLine_patch, nextLine_emit, nextLine_emit]

def Assignment.lowerStep : Option Assignment → Lowering → Lowering
  | some assignment, s => assignment.lower s
  | none, s => s

theorem Assignment.adds_lowerStep (step : Option Assignment) (s : Lowering) :
    s.Adds (lowerStep step s) [] := by
  cases step with
  | none => exact .refl s
  | some assignment => exact assignment.adds_lower s

namespace Statement
variable {guard : Guard} {s t : Lowering} {jump : Instruction}

theorem lower_ifThen (he : guard.lower s = (t.nextLine, t.emit jump)) (body : List Statement) :
    (ifThen guard body).lower s =
      (lowerList body (t.guarded jump)).patch (t.nextLine + 1)
        (lowerList body (t.guarded jump)).nextLine := by
  rw [lower, he]
  dsimp only [Lowering.emitJump]
  rw [Lowering.nextLine_emit]
  rfl

/-- The state behind the first branch and the jump around the second. -/
def afterFirst (t : Lowering) (jump : Instruction) (body : List Statement) : Lowering :=
  ((lowerList body (t.guarded jump)).emit (.jump none)).patch (t.nextLine + 1)
    ((lowerList body (t.guarded jump)).nextLine + 1)

theorem lower_ifElse (he : guard.lower s = (t.nextLine, t.emit jump))
    (body otherwise : List Statement) :
    (ifElse guard body otherwise).lower s =
      (lowerList otherwise (afterFirst t jump body)).patch
        (lowerList body (t.guarded jump)).nextLine
        (lowerList otherwise (afterFirst t jump body)).nextLine := by
  rw [lower, he]
  dsimp only [Lowering.emitJump]
  rw [Lowering.nextLine_emit, Lowering.nextLine_emit]
  rfl

theorem lower_loop (he : guard.lower s = (t.nextLine, t.emit jump)) (body : List Statement)
    (step : Option Assignment) :
    (loop guard body step).lower s =
      ((Assignment.lowerStep step (lowerList body (t.guarded jump))).emit
          (.jump (some s.nextLine))).patch (t.nextLine + 1)
        ((Assignment.lowerStep step (lowerList body (t.guarded jump))).nextLine + 1) := by
  rw [lower, he]
  dsimp only [Lowering.emitJump]
  rw [Lowering.nextLine_emit, Lowering.nextLine_emit]
  cases step <;> rfl

theorem lower_doWhile {body : List Statement}
    (he : guard.lower (lowerList body s) = (t.nextLine, t.emit jump)) :
    (doWhile body (some guard)).lower s = (t.emit jump).patch t.nextLine s.nextLine := by
  rw [lower]
  dsimp only
  rw [he]

/-- The jump around the second branch still waits for its target. -/
theorem adds_afterFirst (hs : s.Adds t []) (body : List Statement)
    (hb : (t.guarded jump).Adds (lowerList body (t.guarded jump)) []) :
    s.Adds (afterFirst t jump body) [(lowerList body (t.guarded jump)).nextLine] := by
  have h := (hs.trans (t.adds_guarded jump)).trans hb
  have hopen := h.emitOpen (.jump none)
  exact hopen.patch (Nat.le_succ_of_le hs.nextLine) (Nat.le_succ_of_le h.nextLine)
    (Nat.le_of_eq (Lowering.nextLine_emit ..).symm)

mutual

theorem adds_lower : ∀ (statement : Statement) (s : Lowering), s.Adds (statement.lower s) []
  | .declare declaration, s => by
    rw [lower]
    exact declaration.adds_lower s
  | .assign assignment, s => by
    rw [lower]
    exact assignment.adds_lower s
  | .define definition, s => by
    rw [lower]
    exact definition.adds_lower s
  | .ifThen guard body, s => by
    obtain ⟨t, jump, ht, he⟩ := guard.exists_lower_eq s
    rw [lower_ifThen he]
    have hb := (ht.trans (t.adds_guarded jump)).trans (adds_lowerList body _)
    exact hb.patch (Nat.le_succ_of_le ht.nextLine) hb.nextLine (Nat.le_refl _)
  | .ifElse guard body otherwise, s => by
    obtain ⟨t, jump, ht, he⟩ := guard.exists_lower_eq s
    rw [lower_ifElse he]
    have hb := (ht.trans (t.adds_guarded jump)).trans (adds_lowerList body _)
    have hfirst := adds_afterFirst ht body (adds_lowerList body (t.guarded jump))
    have ho := hfirst.trans (adds_lowerList otherwise _)
    exact ho.patch hb.nextLine ho.nextLine (Nat.le_refl _)
  | .loop guard body step, s => by
    obtain ⟨t, jump, ht, he⟩ := guard.exists_lower_eq s
    rw [lower_loop he]
    have hb := (ht.trans (t.adds_guarded jump)).trans (adds_lowerList body _)
    have hstep := hb.trans (Assignment.adds_lowerStep step _)
    -- The jump back leads to the line on which the guard starts.
    have hleads : Instruction.LeadsWithin s.nextLine
        ((Assignment.lowerStep step (lowerList body (t.guarded jump))).nextLine + 1)
        (.jump (some s.nextLine)) :=
      ⟨s.nextLine, rfl, Nat.le_refl _, Nat.le_succ_of_le hstep.nextLine⟩
    have hback := hstep.emit hleads
    exact hback.patch (Nat.le_succ_of_le ht.nextLine) (Nat.le_succ_of_le hstep.nextLine)
      (Nat.le_of_eq (Lowering.nextLine_emit ..).symm)
  | .doWhile body none, s => by
    rw [lower]
    exact adds_lowerList body s
  | .doWhile body (some guard), s => by
    obtain ⟨t, jump, ht, he⟩ := guard.exists_lower_eq (lowerList body s)
    rw [lower_doWhile he]
    have hb := (adds_lowerList body s).trans ht
    have hopen := hb.emitOpen jump
    exact hopen.patch hb.nextLine (Nat.le_refl _) hopen.nextLine

theorem adds_lowerList :
    ∀ (statements : List Statement) (s : Lowering), s.Adds (lowerList statements s) []
  | [], s => by
    rw [lowerList]
    exact .refl s
  | statement :: rest, s => by
    rw [lowerList]
    exact (adds_lower statement s).trans (adds_lowerList rest _)

end

end Statement

/-! ## Trees -/

/-- Code, symbols and complaints were added at the end, and the jumps in the new code lead from its
first line to the line behind it. -/
structure Lowering.Appends (s t : Lowering) : Prop where
  code : ∃ block, t.code.instructions = s.code.instructions ++ block ∧
    ∀ instruction ∈ block, instruction.LeadsWithin s.nextLine t.nextLine
  symbols : s.symbols.entries <+: t.symbols.entries
  errors : s.errors <+: t.errors

theorem Code.getElem?_instructions (code : Code) (index : Nat) :
    code.instructions[index]? = code.get? (index + 1) := rfl

/-- Lines are counted from 1. -/
theorem Code.get?_eq_some_iff {code : Code} {line : Nat} {instruction : Instruction} :
    code.get? line = some instruction ↔
      ∃ index, line = index + 1 ∧ code.instructions.toList[index]? = some instruction := by
  cases line with
  | zero => simp [get?]
  | succ line => simp [← getElem?_instructions]

theorem Code.get?_empty (line : Nat) : Code.empty.get? line = none :=
  Option.eq_none_iff_forall_ne_some.2 fun instruction h => by
    obtain ⟨index, -, hi⟩ := get?_eq_some_iff.1 h
    exact absurd hi (by simp [empty])

/-- The instructions that were there and those on the lines behind them. -/
theorem Lowering.Extends.instructions_eq {s t : Lowering} (h : s.Extends t) :
    t.code.instructions =
      s.code.instructions ++ t.code.instructions.extract s.code.instructions.size := by
  refine Array.ext_getElem? fun index => ?_
  rw [Array.getElem?_append]
  split
  · rename_i hi
    rw [Code.getElem?_instructions, Code.getElem?_instructions]
    exact h.get? (index + 1) (Nat.succ_lt_succ hi)
  · rename_i hi
    rw [Array.getElem?_extract, Nat.add_sub_cancel' (Nat.le_of_not_lt hi)]
    split
    · rfl
    · exact Array.getElem?_eq_none (by omega)

theorem Lowering.Adds.appends {s t : Lowering} (h : s.Adds t []) : s.Appends t where
  code := by
    refine ⟨_, h.toExtends.instructions_eq, fun instruction hm => ?_⟩
    obtain ⟨index, hi⟩ := Array.getElem?_of_mem hm
    rw [Array.getElem?_extract] at hi
    split at hi
    · rw [Code.getElem?_instructions] at hi
      exact h.leadsWithin _ instruction (Nat.succ_le_succ (Nat.le_add_right ..)) List.not_mem_nil hi
    · exact absurd hi (by simp)
  symbols := h.symbols
  errors := h.errors

/-- Lowering a statement node or a list of them only adds, and no jump in what it adds is left
without a target or leads elsewhere. So it is with the code of a whole tree. -/
theorem lowering_appends (tree : Tree) :
    (∀ s : Lowering, s.Appends (Statement.lowerList (Statement.ofTree tree) s) ∧
      s.Appends (Statement.lowerList (Statement.listOfTree tree) s)) ∧
    ∀ instruction ∈ (analyzeTree tree).code.instructions,
      instruction.LeadsWithin 1 ((analyzeTree tree).code.size + 1) := by
  refine ⟨fun s => ⟨(Statement.adds_lowerList _ s).appends, (Statement.adds_lowerList _ s).appends⟩,
    fun instruction hm => ?_⟩
  obtain ⟨block, hcode, hblock⟩ :=
    (Statement.adds_lowerList (Statement.listOfTree tree) .initial).appends.code
  have hall : (analyzeTree tree).code.instructions = block := hcode.trans (Array.empty_append ..)
  exact hblock instruction (hall ▸ hm)

end FrontEnd
