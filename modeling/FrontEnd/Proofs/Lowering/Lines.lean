import FrontEnd.Proofs.Lowering.Growth
import FrontEnd.Proofs.Program.Lines

/-! # The lines of complaints

A complaint about a program is on one of the lines in the program. Each operation keeps the lines of
the complaints good when the lines of what it lowers are good.

* `Lowering.OnLines`: all complaints so far are on good lines.
* `Expr.onLines_lower`, `Guard.onLines_lower`, `Statement.onLines_lowerList`: lowering keeps it so.
* `line_mem_of_mem_analyze`: every complaint about a program is on a line in it.
-/

namespace FrontEnd
set_option autoImplicit false

section
variable {good : Nat → Prop}

/-! ## Single operations -/

namespace Lowering

def OnLines (good : Nat → Prop) (s : Lowering) : Prop := ∀ error ∈ s.errors, good error.line

namespace OnLines
variable {s : Lowering}

theorem addErrors (hs : s.OnLines good) {errors : List SemanticError}
    (he : ∀ error ∈ errors, good error.line) (symbols : SymbolTable) :
    OnLines good { s with symbols, errors := s.errors ++ errors } :=
  List.forall_mem_append.2 ⟨hs, he⟩

theorem addError (hs : s.OnLines good) {line : Nat} (hl : good line) (fault : SemanticFault) :
    (s.addError line fault).OnLines good :=
  hs.addErrors (List.forall_mem_singleton.2 hl) s.symbols

theorem emit (hs : s.OnLines good) (instruction : Instruction) :
    (s.emit instruction).OnLines good := hs

theorem emitFresh (hs : s.OnLines good) (instruction : String → Instruction) :
    (s.emitFresh instruction).2.OnLines good := hs

theorem patch (hs : s.OnLines good) (line target : Nat) : (s.patch line target).OnLines good := hs

theorem guarded (hs : s.OnLines good) (jump : Instruction) : (s.guarded jump).OnLines good := hs

theorem checkTypes (hs : s.OnLines good) {line : Nat} (hl : good line) (left right : Operand) :
    (s.checkTypes line left right).OnLines good := by
  unfold Lowering.checkTypes
  split
  · split
    · exact hs
    · exact hs.addError hl _
  · exact hs

theorem compared (hs : s.OnLines good) {line : Nat} (hl : good line)
    (left right : Option Operand) : (s.compared line left right).OnLines good := by
  unfold Lowering.compared
  split
  · exact hs.checkTypes hl _ _
  · exact hs

end OnLines
end Lowering

/-! ## Expressions -/

variable {s : Lowering}

theorem Expr.onLines_lower (e : Expr) (he : ∀ line ∈ e.lines, good line) (hs : s.OnLines good) :
    (e.lower s).2.OnLines good := by
  induction e generalizing s with
  | int text | float text => exact hs
  | name line text =>
    unfold lower
    split
    · exact hs
    · exact hs.addError (he line List.mem_cons_self) _
  | binary op line left right ihl ihr =>
    rw [lines, List.forall_mem_cons, List.forall_mem_append] at he
    rw [lower]
    exact ((ihr he.2.2 (ihl he.2.1 hs)).checkTypes he.1 _ _).emitFresh _

theorem Expr.onLines_lowerValue (e : Expr) (he : ∀ line ∈ e.lines, good line)
    (hs : s.OnLines good) : (e.lowerValue s).2.OnLines good := by
  unfold lowerValue
  dsimp only
  split
  · exact e.onLines_lower he hs
  · exact (e.onLines_lower he hs).emitFresh _

theorem onLines_lowerOperand (e : Option Expr) (he : ∀ line ∈ Expr.linesOf e, good line)
    (hs : s.OnLines good) : (lowerOperand e s).2.OnLines good := by
  cases e with
  | none => exact hs
  | some e => exact e.onLines_lower he hs

theorem Guard.onLines_lower (guard : Guard) (hg : ∀ line ∈ guard.lines, good line)
    (hs : s.OnLines good) : (guard.lower s).2.OnLines good := by
  cases guard with
  | compare op line left right =>
    rw [lines, List.forall_mem_cons, List.forall_mem_append] at hg
    have ha := onLines_lowerOperand left hg.2.1 hs
    have hb := onLines_lowerOperand right hg.2.2 ha
    rw [lower_compare]
    exact (hb.compared hg.1 _ _).emit _
  | truth value =>
    cases value with
    | none => exact hs.emit _
    | some value => exact (value.onLines_lowerValue hg hs).emit _

theorem Guard.exists_onLines_lower (guard : Guard) (hg : ∀ line ∈ guard.lines, good line)
    (hs : s.OnLines good) :
    ∃ t jump, Lowering.OnLines good t ∧ guard.lower s = (t.nextLine, t.emit jump) := by
  obtain ⟨t, jump, -, he⟩ := guard.exists_lower_eq s
  have ht := guard.onLines_lower hg hs
  rw [he] at ht
  exact ⟨t, jump, ht, he⟩

/-! ## Names and stores -/

theorem Lowering.OnLines.store (hs : s.OnLines good) (name : String) (value : Option Expr)
    (hv : ∀ line ∈ Expr.linesOf value, good line) : (s.store name value).OnLines good := by
  cases value with
  | none => exact hs
  | some value => exact (value.onLines_lowerValue hv hs).emit _

theorem Assignment.onLines_lower (assignment : Assignment)
    (ha : ∀ line ∈ assignment.lines, good line) (hs : s.OnLines good) :
    (assignment.lower s).OnLines good := by
  rw [lines, List.forall_mem_cons] at ha
  unfold lower
  split
  · split
    · exact hs.addError ha.1 _
    · rename_i value hright
      rw [hright] at ha
      exact hs.store _ value ha.2
  · exact hs.addError ha.1 _

theorem Assignment.onLines_lowerStep (step : Option Assignment)
    (ha : ∀ line ∈ step.toList.flatMap lines, good line) (hs : s.OnLines good) :
    (lowerStep step s).OnLines good := by
  cases step with
  | none => exact hs
  | some assignment =>
    rw [Option.toList_some, List.flatMap_singleton] at ha
    exact assignment.onLines_lower ha hs

theorem Suffix.line_of_mem_errors {suffixes : List Suffix}
    (h : ∀ line ∈ suffixes.map (·.line), good line) (name : String) :
    ∀ error ∈ errors name suffixes, good error.line := by
  intro error he
  obtain ⟨suffix, hs, rfl⟩ := List.mem_map.1 he
  exact h suffix.line (List.mem_map_of_mem (List.mem_filter.1 hs).1)

theorem Declaration.onLines_lower (declaration : Declaration)
    (hd : ∀ line ∈ declaration.lines, good line) (hs : s.OnLines good) :
    (declaration.lower s).OnLines good := by
  rw [lines, List.forall_mem_cons, List.forall_mem_append] at hd
  obtain ⟨hline, hsuffixes, hinitializer⟩ := hd
  unfold lower
  split
  · exact hs.addError hline _
  · rename_i symbols _
    have hdeclared := hs.addErrors (Suffix.line_of_mem_errors hsuffixes declaration.name) symbols
    dsimp only
    split
    · exact hdeclared
    · rename_i value hi
      split
      · exact hdeclared.addError hline _
      · rw [hi] at hinitializer
        exact hdeclared.store _ value hinitializer

theorem StructDefinition.line_of_mem_members (definition : String) {fields : List Field}
    (h : ∀ line ∈ fields.map (·.line), good line) (taken : List (String × Ty)) :
    ∀ error ∈ (members definition taken fields).2, good error.line := by
  induction fields generalizing taken with
  | nil => exact List.forall_mem_nil _
  | cons field fields ih =>
    rw [List.map_cons, List.forall_mem_cons] at h
    rw [members]
    split
    · exact List.forall_mem_cons.2 ⟨h.1, ih h.2 taken⟩
    · exact ih h.2 _

theorem StructDefinition.onLines_lower (definition : StructDefinition)
    (hd : ∀ line ∈ definition.lines, good line) (hs : s.OnLines good) :
    (definition.lower s).OnLines good := by
  rw [lines, List.forall_mem_cons] at hd
  have hmembers := line_of_mem_members definition.name hd.2 []
  unfold lower
  dsimp only
  split
  · exact (hs.addErrors hmembers s.symbols).addError hd.1 _
  · rename_i symbols _
    exact hs.addErrors hmembers symbols

/-! ## Control flow -/

namespace Statement

mutual

theorem onLines_lower : ∀ (statement : Statement) {s : Lowering},
    (∀ line ∈ statement.lines, good line) → s.OnLines good → (statement.lower s).OnLines good
  | .declare declaration, s, h, hs => by
    rw [lower]
    exact declaration.onLines_lower h hs
  | .assign assignment, s, h, hs => by
    rw [lower]
    exact assignment.onLines_lower h hs
  | .define definition, s, h, hs => by
    rw [lower]
    exact definition.onLines_lower h hs
  | .ifThen guard body, s, h, hs => by
    rw [lines, List.forall_mem_append] at h
    obtain ⟨t, jump, ht, he⟩ := guard.exists_onLines_lower h.1 hs
    rw [lower_ifThen he]
    exact (onLines_lowerList body h.2 (ht.guarded jump)).patch _ _
  | .ifElse guard body otherwise, s, h, hs => by
    rw [lines, List.forall_mem_append, List.forall_mem_append] at h
    obtain ⟨t, jump, ht, he⟩ := guard.exists_onLines_lower h.1 hs
    have hb := onLines_lowerList body h.2.1 (ht.guarded jump)
    have hfirst : (afterFirst t jump body).OnLines good := (hb.emit _).patch _ _
    rw [lower_ifElse he]
    exact (onLines_lowerList otherwise h.2.2 hfirst).patch _ _
  | .loop guard body step, s, h, hs => by
    rw [lines, List.forall_mem_append, List.forall_mem_append] at h
    obtain ⟨t, jump, ht, he⟩ := guard.exists_onLines_lower h.1 hs
    have hb := onLines_lowerList body h.2.1 (ht.guarded jump)
    rw [lower_loop he]
    exact ((Assignment.onLines_lowerStep step h.2.2 hb).emit _).patch _ _
  | .doWhile body none, s, h, hs => by
    rw [lines, List.forall_mem_append] at h
    rw [lower]
    exact onLines_lowerList body h.1 hs
  | .doWhile body (some guard), s, h, hs => by
    rw [lines, List.forall_mem_append, Option.toList_some, List.flatMap_singleton] at h
    obtain ⟨t, jump, ht, he⟩ := guard.exists_onLines_lower h.2 (onLines_lowerList body h.1 hs)
    rw [lower_doWhile he]
    exact (ht.emit jump).patch _ _

theorem onLines_lowerList : ∀ (statements : List Statement) {s : Lowering},
    (∀ line ∈ allLines statements, good line) → s.OnLines good →
      (lowerList statements s).OnLines good
  | [], s, _, hs => by
    rw [lowerList]
    exact hs
  | statement :: rest, s, h, hs => by
    rw [allLines, List.forall_mem_append] at h
    rw [lowerList]
    exact onLines_lowerList rest h.2 (onLines_lower statement h.1 hs)

end

end Statement
end

/-- Every complaint about a program is on a line in the program. -/
theorem line_mem_of_mem_analyze {program : List Statement} {error : SemanticError}
    (h : error ∈ (analyze program).errors) : error.line ∈ Statement.allLines program := by
  have hinitial : Lowering.initial.OnLines (· ∈ Statement.allLines program) :=
    List.forall_mem_nil _
  exact Statement.onLines_lowerList program (fun _ hm => hm) hinitial error h

end FrontEnd
