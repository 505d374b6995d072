import FrontEnd.Proofs.Lowering.Types
import FrontEnd.Proofs.Program.Texts

/-! # Temporaries are filled once and read once

Where no name or literal looks like a temporary, the temporaries `t1`, `t2`, … are filled in this
order, and each is read at most once, on a later line.

* `Code.results`, `Code.operands`: what the code assigns to and what it reads.
* `Lowering.Reads`: all temporaries that were read were filled before, each was read once, and those
  still held were not read yet. `Lowering.Disciplined`: besides, they were filled in order.
* `Lowering.Disciplined.emit`, `Lowering.Disciplined.emitFresh`, `Lowering.Disciplined.patch`: each
  operation keeps this, where an instruction gives back what it reads.
* `Expr.disciplined_lower`: an expression leaves its place held, if this is a temporary.
* `Guard.exists_disciplined`, `Statement.disciplined_lower`: nothing is held behind a statement.
* `temporaries_disciplined`: the code of a tree.
-/

namespace FrontEnd
set_option autoImplicit false

/-! ## Results and operands -/

/-- The texts that look like temporaries. -/
def temporariesIn (texts : List String) : List String := texts.filter isTemporaryName

theorem temporariesIn_eq_nil {texts : List String}
    (h : ∀ text ∈ texts, isTemporaryName text = false) : temporariesIn texts = [] :=
  List.filter_eq_nil_iff.2 fun text ht => by rw [h text ht]; exact Bool.false_ne_true

theorem temporariesIn_temporary (number : Nat) :
    temporariesIn [Lowering.temporary number] = [Lowering.temporary number] :=
  List.filter_cons_of_pos (isTemporaryName_temporary number)

theorem Instruction.operands_patch (line : Nat) (instruction : Instruction) :
    (instruction.patch line).operands = instruction.operands := by
  cases instruction <;> rfl

namespace Code

/-- The names that are assigned to, in the order of the lines. -/
def results (code : Code) : List String := code.instructions.toList.filterMap Instruction.result?

/-- What is read, in the order of the lines. -/
def operands (code : Code) : List String := code.instructions.toList.flatMap Instruction.operands

theorem results_emit (code : Code) (instruction : Instruction) :
    (code.emit instruction).results = code.results ++ instruction.result?.toList := by
  rw [results, results, emit, Array.toList_push, List.filterMap_append]
  cases h : instruction.result? <;> simp [h]

theorem operands_emit (code : Code) (instruction : Instruction) :
    (code.emit instruction).operands = code.operands ++ instruction.operands := by
  rw [operands, operands, emit, Array.toList_push, List.flatMap_append, List.flatMap_singleton]

/-- What patching leaves alone in an instruction stays as it is in the code. -/
theorem map_patch {α : Type} {f : Instruction → α}
    (hf : ∀ target instruction, f (instruction.patch target) = f instruction) (code : Code)
    (line target : Nat) :
    (code.patch line target).instructions.toList.map f = code.instructions.toList.map f := by
  unfold patch
  split
  · rfl
  · rw [Array.toList_modify]
    refine List.ext_getElem? fun index => ?_
    rw [List.getElem?_map, List.getElem?_map, List.getElem?_modify]
    split
    · cases code.instructions.toList[index]? with
      | none => rfl
      | some instruction => exact congrArg some (hf target instruction)
    · rw [id_map']

theorem results_patch (code : Code) (line target : Nat) :
    (code.patch line target).results = code.results := by
  have h := congrArg (List.filterMap id) (code.map_patch Instruction.result?_patch line target)
  rwa [List.filterMap_map, List.filterMap_map] at h

theorem operands_patch (code : Code) (line target : Nat) :
    (code.patch line target).operands = code.operands :=
  congrArg List.flatten (code.map_patch Instruction.operands_patch line target)

end Code

namespace Lowering
variable {s t : Lowering} {held before : List String} {instruction : Instruction}

theorem assigned?_eq_some_iff {line : Nat} {name : String} :
    s.assigned? line = some name ↔ ∃ index instruction, line = index + 1 ∧
      s.code.instructions.toList[index]? = some instruction ∧
        instruction.result? = some name := by
  simp only [assigned?, Option.bind_eq_some_iff, Code.get?_eq_some_iff]
  constructor
  · rintro ⟨instruction, ⟨index, hl, hi⟩, hr⟩
    exact ⟨index, instruction, hl, hi, hr⟩
  · rintro ⟨index, instruction, hl, hi, hr⟩
    exact ⟨instruction, ⟨index, hl, hi⟩, hr⟩

theorem mem_results_iff {name : String} :
    name ∈ s.code.results ↔ ∃ line, s.assigned? line = some name := by
  simp only [assigned?_eq_some_iff]
  constructor
  · intro h
    obtain ⟨instruction, hi, hr⟩ := List.mem_filterMap.1 h
    obtain ⟨index, hindex⟩ := List.getElem?_of_mem hi
    exact ⟨index + 1, index, instruction, rfl, hindex, hr⟩
  · rintro ⟨line, index, instruction, -, hi, hr⟩
    exact List.mem_filterMap.2 ⟨instruction, List.mem_of_getElem? hi, hr⟩

/-! ## Reading temporaries -/

/-- The temporaries that were read were filled on earlier lines. They and those that are held, which
were filled as well, are all different. -/
structure Reads (held : List String) (s : Lowering) : Prop where
  earlier : ∀ line instruction place, s.code.get? line = some instruction →
    place ∈ instruction.operands → isTemporaryName place = true →
      ∃ first < line, s.assigned? first = some place
  filled : ∀ place ∈ held, place ∈ temporariesIn s.code.results
  nodup : (temporariesIn s.code.operands ++ held).Nodup

namespace Reads

/-- An instruction reads temporaries that are held, and these are held no longer. -/
theorem emit (h : s.Reads before)
    (hp : before.Perm (temporariesIn instruction.operands ++ held)) :
    (s.emit instruction).Reads held where
  earlier line other place hi hm ht := by
    rw [get?_emit] at hi
    split at hi
    · rename_i hline
      obtain rfl := Option.some.inj hi
      have hbefore : place ∈ before :=
        hp.mem_iff.2 (List.mem_append_left _ (List.mem_filter.2 ⟨hm, ht⟩))
      obtain ⟨first, hfirst⟩ := mem_results_iff.1 (List.mem_filter.1 (h.filled place hbefore)).1
      have hlt := lt_nextLine_of_assigned? hfirst
      refine ⟨first, hline ▸ hlt, ?_⟩
      rwa [assigned?_emit, if_neg (Nat.ne_of_lt hlt)]
    · obtain ⟨first, hlt, hfirst⟩ := h.earlier line other place hi hm ht
      refine ⟨first, hlt, ?_⟩
      rwa [assigned?_emit, if_neg (Nat.ne_of_lt (lt_nextLine_of_assigned? hfirst))]
  filled place hm := by
    have hfilled := h.filled place (hp.mem_iff.2 (List.mem_append_right _ hm))
    show place ∈ temporariesIn (s.code.emit instruction).results
    rw [Code.results_emit, temporariesIn, List.filter_append]
    exact List.mem_append_left _ hfilled
  nodup := by
    show (temporariesIn (s.code.emit instruction).operands ++ held).Nodup
    rw [Code.operands_emit, temporariesIn, List.filter_append, List.append_assoc]
    exact ((List.Perm.append_left _ hp).nodup_iff).1 h.nodup

theorem patch (h : s.Reads held) (line target : Nat) : (s.patch line target).Reads held where
  earlier other instruction place hi hm ht := by
    rw [get?_patch] at hi
    have hearlier : ∃ first < other, s.assigned? first = some place := by
      split at hi
      · obtain ⟨old, hold, rfl⟩ := Option.map_eq_some_iff.1 hi
        rw [Instruction.operands_patch] at hm
        exact h.earlier other old place hold hm ht
      · exact h.earlier other instruction place hi hm ht
    obtain ⟨first, hlt, hfirst⟩ := hearlier
    exact ⟨first, hlt, (assigned?_patch ..).trans hfirst⟩
  filled place hm := by
    show place ∈ temporariesIn (s.code.patch line target).results
    rw [Code.results_patch]
    exact h.filled place hm
  nodup := by
    show (temporariesIn (s.code.patch line target).operands ++ held).Nodup
    rw [Code.operands_patch]
    exact h.nodup

/-- Every temporary that was read or is held was filled. -/
theorem mem_results (h : s.Reads held) {place : String}
    (hp : place ∈ temporariesIn s.code.operands ++ held) :
    place ∈ temporariesIn s.code.results := by
  rcases List.mem_append.1 hp with hp | hp
  · obtain ⟨hm, ht⟩ := List.mem_filter.1 hp
    obtain ⟨instruction, hi, ho⟩ := List.mem_flatMap.1 hm
    obtain ⟨index, hindex⟩ := List.getElem?_of_mem hi
    have hget := Code.get?_eq_some_iff.2 ⟨index, rfl, hindex⟩
    obtain ⟨first, -, hfirst⟩ := h.earlier _ instruction place hget ho ht
    exact List.mem_filter.2 ⟨mem_results_iff.2 ⟨first, hfirst⟩, ht⟩
  · exact h.filled place hp

end Reads

/-! ## Filling them in order -/

/-- Besides, the temporaries were filled in order, all that were handed out. -/
structure Disciplined (held : List String) (s : Lowering) : Prop extends Reads held s where
  results : ∃ count, s.nextTemporary = 1 + count ∧
    temporariesIn s.code.results = (List.range' 1 count).map temporary

theorem disciplined_initial : initial.Disciplined [] where
  earlier line instruction place hi := by
    rw [initial, Code.get?_empty] at hi
    exact absurd hi (by simp)
  filled := List.forall_mem_nil _
  nodup := .nil
  results := ⟨0, rfl, rfl⟩

namespace Disciplined

/-- Complaints and declarations do not matter. -/
theorem congr (h : s.Disciplined held) (hc : t.code = s.code)
    (hn : t.nextTemporary = s.nextTemporary) : t.Disciplined held := by
  obtain ⟨symbols, code, errors, nextTemporary⟩ := t
  obtain rfl : code = s.code := hc
  obtain rfl : nextTemporary = s.nextTemporary := hn
  exact ⟨⟨h.earlier, h.filled, h.nodup⟩, h.results⟩

theorem patch (h : s.Disciplined held) (line target : Nat) :
    (s.patch line target).Disciplined held where
  toReads := h.toReads.patch line target
  results := by
    show ∃ count, s.nextTemporary = 1 + count ∧
      temporariesIn (s.code.patch line target).results = _
    rw [Code.results_patch]
    exact h.results

/-- An instruction that is not for an expression does not fill a temporary. -/
theorem emit (h : s.Disciplined before)
    (hr : ∀ name ∈ instruction.result?, isTemporaryName name = false)
    (hp : before.Perm (temporariesIn instruction.operands ++ held)) :
    (s.emit instruction).Disciplined held where
  toReads := h.toReads.emit hp
  results := by
    show ∃ count, s.nextTemporary = 1 + count ∧
      temporariesIn (s.code.emit instruction).results = _
    have hnone : temporariesIn instruction.result?.toList = [] :=
      temporariesIn_eq_nil fun name hn => hr name (Option.mem_toList.1 hn)
    rw [Code.results_emit, temporariesIn, List.filter_append]
    exact (congrArg (_ ++ ·) hnone).trans (List.append_nil _) ▸ h.results

theorem emitJump (h : s.Disciplined held) (target : Option Nat) :
    (s.emit (.jump target)).Disciplined held :=
  h.emit (by simp [Instruction.result?]) (.refl _)

/-- The temporary that an operation fills is new, and is held from then on. -/
theorem emitFresh (h : s.Disciplined before) {operation : String → Instruction}
    (hr : ∀ name, (operation name).result? = some name)
    (hp : before.Perm (temporariesIn (operation (temporary s.nextTemporary)).operands ++ held)) :
    (s.emitFresh operation).2.Disciplined (temporary s.nextTemporary :: held) := by
  obtain ⟨count, hcount, hresults⟩ := h.results
  have hemit : (s.emit (operation (temporary s.nextTemporary))).Reads held := h.toReads.emit hp
  have hfilled : temporariesIn (s.emitFresh operation).2.code.results =
      (List.range' 1 (count + 1)).map temporary := by
    show temporariesIn (s.code.emit (operation (temporary s.nextTemporary))).results = _
    rw [Code.results_emit, hr, temporariesIn, List.filter_append, List.range'_concat,
      List.map_append]
    refine congrArg₂ (· ++ ·) hresults ?_
    rw [Nat.one_mul, ← hcount]
    exact temporariesIn_temporary _
  refine ⟨⟨hemit.earlier, fun place hm => ?_, ?_⟩, count + 1, ?_, hfilled⟩
  · rcases List.mem_cons.1 hm with rfl | hm
    · rw [hfilled, hcount]
      exact List.mem_map_of_mem (List.mem_range'_1.2 (by omega))
    · exact hemit.filled place hm
  · -- What was read or is held has a smaller number.
    refine (List.perm_middle.nodup_iff).2 (List.nodup_cons.2 ⟨fun hm => ?_, hemit.nodup⟩)
    have hold : temporary s.nextTemporary ∈ temporariesIn s.code.results := by
      rcases List.mem_append.1 hm with hm | hm
      · refine h.toReads.mem_results (List.mem_append.2 ?_)
        have hm' : temporary s.nextTemporary ∈ temporariesIn
            (s.code.emit (operation (temporary s.nextTemporary))).operands := hm
        rw [Code.operands_emit, temporariesIn, List.filter_append] at hm'
        exact (List.mem_append.1 hm').imp_right fun hm =>
          hp.mem_iff.2 (List.mem_append_left _ hm)
      · exact h.filled _ (hp.mem_iff.2 (List.mem_append_right _ hm))
    rw [hresults] at hold
    obtain ⟨number, hnumber, he⟩ := List.mem_map.1 hold
    have := temporary_inj he
    have := List.mem_range'_1.1 hnumber
    omega
  · show s.nextTemporary + 1 = 1 + (count + 1)
    omega

/-- Names and literals are not held. -/
theorem plain (h : s.Disciplined held) {place : String} (hp : isTemporaryName place = false) :
    s.Disciplined (temporariesIn [place] ++ held) := by
  rw [temporariesIn_eq_nil (List.forall_mem_singleton.2 hp)]
  exact h

theorem declare (h : s.Disciplined held) (symbols : SymbolTable) (errors : List SemanticError) :
    Disciplined held { s with symbols, errors := s.errors ++ errors } :=
  h.congr rfl rfl

theorem addError (h : s.Disciplined held) (line : Nat) (fault : SemanticFault) :
    (s.addError line fault).Disciplined held :=
  h.congr rfl rfl

theorem checkTypes (h : s.Disciplined held) (line : Nat) (left right : Operand) :
    (s.checkTypes line left right).Disciplined held := by
  unfold Lowering.checkTypes
  split
  · split
    · exact h
    · exact h.addError _ _
  · exact h

theorem compared (h : s.Disciplined held) (line : Nat) (left right : Option Operand) :
    (s.compared line left right).Disciplined held := by
  unfold Lowering.compared
  split
  · exact h.checkTypes _ _ _
  · exact h

end Disciplined
end Lowering

section
variable {s t : Lowering} {held : List String}

/-! ## Expressions -/

/-- The place of an expression is held, if it is a temporary. -/
theorem Expr.disciplined_lower (e : Expr) (he : ∀ text ∈ e.texts, isTemporaryName text = false)
    (h : s.Disciplined held) :
    (e.lower s).2.Disciplined (temporariesIn [(e.lower s).1.place] ++ held) := by
  induction e generalizing s held with
  | int text | float text => exact h.plain (he text List.mem_cons_self)
  | name line text =>
    have hplain := he text List.mem_cons_self
    unfold lower
    split
    · exact h.plain hplain
    · exact (h.addError _ _).plain hplain
  | binary op line left right ihl ihr =>
    rw [texts, List.forall_mem_append] at he
    have hoperands := (ihr he.2 (ihl he.1 h)).checkTypes line (left.lower s).1
      (right.lower (left.lower s).2).1
    rw [lower]
    dsimp only [Lowering.emitFresh]
    rw [temporariesIn_temporary]
    refine hoperands.emitFresh (fun _ => rfl) ?_
    rw [← List.append_assoc]
    refine List.Perm.append_right held (List.perm_append_comm.trans ?_)
    exact List.Perm.of_eq (List.filter_append (p := isTemporaryName) [_] [_]).symm

theorem Expr.disciplined_lowerValue (e : Expr)
    (he : ∀ text ∈ e.texts, isTemporaryName text = false) (h : s.Disciplined held) :
    (e.lowerValue s).2.Disciplined (temporariesIn [(e.lowerValue s).1] ++ held) := by
  have hlower := e.disciplined_lower he h
  unfold lowerValue
  dsimp only
  split
  · exact hlower
  · dsimp only [Lowering.emitFresh]
    rw [temporariesIn_temporary]
    exact hlower.emitFresh (fun _ => rfl) (.refl _)

theorem disciplined_lowerOperand (e : Option Expr)
    (he : ∀ text ∈ Expr.textsOf e, isTemporaryName text = false) (h : s.Disciplined held) :
    (lowerOperand e s).2.Disciplined
      (temporariesIn [placeOrZero (lowerOperand e s).1] ++ held) := by
  cases e with
  | none =>
    have hzero : isTemporaryName "0" = false := by decide
    exact h.plain hzero
  | some e => exact e.disciplined_lower he h

/-- The jump at the end of a guard reads what was computed for it. -/
theorem Guard.exists_disciplined (guard : Guard)
    (hg : ∀ text ∈ guard.texts, isTemporaryName text = false) (h : s.Disciplined held) :
    ∃ (t : Lowering) (jump : Instruction), guard.lower s = (t.nextLine, t.emit jump) ∧
      (t.emit jump).Disciplined held := by
  cases guard with
  | compare op line left right =>
    rw [texts, List.forall_mem_append] at hg
    have hoperands := (disciplined_lowerOperand right hg.2
      (disciplined_lowerOperand left hg.1 h)).compared line (lowerOperand left s).1
      (lowerOperand right (lowerOperand left s).2).1
    refine ⟨_, _, lower_compare op line left right s, hoperands.emit (by simp [Instruction.result?])
      ?_⟩
    rw [← List.append_assoc]
    refine List.Perm.append_right held (List.perm_append_comm.trans ?_)
    exact List.Perm.of_eq (List.filter_append (p := isTemporaryName) [_] [_]).symm
  | truth value =>
    cases value with
    | none =>
      refine ⟨s, _, rfl, h.emit (by simp [Instruction.result?]) ?_⟩
      exact List.Perm.of_eq rfl
    | some value =>
      exact ⟨_, _, rfl, (value.disciplined_lowerValue hg h).emit (by simp [Instruction.result?])
        (.refl _)⟩

/-! ## Statements -/

theorem Lowering.Disciplined.store (h : s.Disciplined held) {name : String}
    (hn : isTemporaryName name = false) (value : Option Expr)
    (hv : ∀ text ∈ Expr.textsOf value, isTemporaryName text = false) :
    (s.store name value).Disciplined held := by
  cases value with
  | none => exact h
  | some value =>
    refine (value.disciplined_lowerValue hv h).emit (fun other ho => ?_) (.refl _)
    obtain rfl := Option.some.inj ho
    exact hn

theorem Assignment.disciplined_lower (assignment : Assignment)
    (ha : ∀ text ∈ assignment.texts, isTemporaryName text = false) (h : s.Disciplined held) :
    (assignment.lower s).Disciplined held := by
  obtain ⟨hname, hright⟩ := List.forall_mem_cons.1 ha
  unfold lower
  split
  · split
    · exact h.addError _ _
    · rename_i value hvalue
      rw [hvalue] at hright
      exact h.store hname value hright
  · exact h.addError _ _

theorem Assignment.disciplined_lowerStep (step : Option Assignment)
    (hs : ∀ text ∈ step.toList.flatMap texts, isTemporaryName text = false)
    (h : s.Disciplined held) : (lowerStep step s).Disciplined held := by
  cases step with
  | none => exact h
  | some assignment => exact assignment.disciplined_lower (by simpa using hs) h

theorem Declaration.disciplined_lower (declaration : Declaration)
    (hd : ∀ text ∈ declaration.texts, isTemporaryName text = false) (h : s.Disciplined held) :
    (declaration.lower s).Disciplined held := by
  obtain ⟨hname, hvalue⟩ := List.forall_mem_cons.1 hd
  unfold lower
  split
  · exact h.addError _ _
  · rename_i symbols _
    have hdeclared := h.declare symbols (Suffix.errors declaration.name declaration.suffixes)
    dsimp only
    split
    · exact hdeclared
    · rename_i value hinitializer
      rw [hinitializer] at hvalue
      split
      · exact hdeclared.addError _ _
      · exact hdeclared.store hname value hvalue

theorem StructDefinition.disciplined_lower (definition : StructDefinition)
    (h : s.Disciplined held) : (definition.lower s).Disciplined held := by
  unfold lower
  dsimp only
  split
  · exact (h.declare s.symbols _).addError _ _
  · exact h.declare _ _

theorem Lowering.Disciplined.guarded {jump : Instruction} (h : (t.emit jump).Disciplined held) :
    (t.guarded jump).Disciplined held :=
  (h.emitJump none).patch _ _

namespace Statement

mutual

/-- Nothing is held behind a statement that was not held before. -/
theorem disciplined_lower : ∀ (statement : Statement) {s : Lowering},
    (∀ part ∈ statement.parts, ∀ text ∈ part.ownTexts, isTemporaryName text = false) →
    s.Disciplined held → (statement.lower s).Disciplined held
  | .declare declaration, s, hn, h => by
    rw [lower]
    exact declaration.disciplined_lower (hn _ (mem_parts_self _)) h
  | .assign assignment, s, hn, h => by
    rw [lower]
    exact assignment.disciplined_lower (hn _ (mem_parts_self _)) h
  | .define definition, s, _, h => by
    rw [lower]
    exact definition.disciplined_lower h
  | .ifThen guard body, s, hn, h => by
    rw [parts, List.forall_mem_cons] at hn
    obtain ⟨t, jump, he, ht⟩ := guard.exists_disciplined hn.1 h
    rw [lower_ifThen he]
    exact (disciplined_lowerList body hn.2 ht.guarded).patch _ _
  | .ifElse guard body otherwise, s, hn, h => by
    rw [parts, List.forall_mem_cons, List.forall_mem_append] at hn
    obtain ⟨t, jump, he, ht⟩ := guard.exists_disciplined hn.1 h
    rw [lower_ifElse he]
    have hfirst : (afterFirst t jump body).Disciplined held :=
      ((disciplined_lowerList body hn.2.1 ht.guarded).emitJump none).patch _ _
    exact (disciplined_lowerList otherwise hn.2.2 hfirst).patch _ _
  | .loop guard body step, s, hn, h => by
    rw [parts, List.forall_mem_cons, ownTexts, List.forall_mem_append] at hn
    obtain ⟨t, jump, he, ht⟩ := guard.exists_disciplined hn.1.1 h
    rw [lower_loop he]
    have hbody := disciplined_lowerList body hn.2 ht.guarded
    exact ((Assignment.disciplined_lowerStep step hn.1.2 hbody).emitJump _).patch _ _
  | .doWhile body none, s, hn, h => by
    rw [parts, List.forall_mem_cons] at hn
    rw [lower]
    exact disciplined_lowerList body hn.2 h
  | .doWhile body (some guard), s, hn, h => by
    rw [parts, List.forall_mem_cons] at hn
    obtain ⟨t, jump, he, ht⟩ := guard.exists_disciplined (by simpa [ownTexts] using hn.1)
      (disciplined_lowerList body hn.2 h)
    rw [lower_doWhile he]
    exact ht.patch _ _

theorem disciplined_lowerList : ∀ (statements : List Statement) {s : Lowering},
    (∀ part ∈ allParts statements, ∀ text ∈ part.ownTexts, isTemporaryName text = false) →
    s.Disciplined held → (lowerList statements s).Disciplined held
  | [], s, _, h => by rwa [lowerList]
  | statement :: rest, s, hn, h => by
    rw [allParts, List.forall_mem_append] at hn
    rw [lowerList]
    exact disciplined_lowerList rest hn.2 (disciplined_lower statement hn.1 h)

end

end Statement
end

/-! ## Trees -/

/-- A name that is among the results once is assigned to on one line. -/
theorem Lowering.assigned?_unique {s : Lowering} {name : String}
    (hs : (temporariesIn s.code.results).Nodup) (ht : isTemporaryName name = true)
    {line other : Nat} (hl : s.assigned? line = some name) (ho : s.assigned? other = some name) :
    line = other := by
  have hpairwise := List.pairwise_iff_getElem.1
    (List.pairwise_filterMap.1 (List.pairwise_filter.1 hs))
  obtain ⟨index, instruction, rfl, hi, hr⟩ := assigned?_eq_some_iff.1 hl
  obtain ⟨index', instruction', rfl, hi', hr'⟩ := assigned?_eq_some_iff.1 ho
  obtain ⟨hlt, rfl⟩ := List.getElem?_eq_some_iff.1 hi
  obtain ⟨hlt', rfl⟩ := List.getElem?_eq_some_iff.1 hi'
  rcases Nat.lt_trichotomy index index' with hcmp | rfl | hcmp
  · exact absurd rfl (hpairwise _ _ hlt hlt' hcmp name hr name hr' ht ht)
  · rfl
  · exact absurd rfl (hpairwise _ _ hlt' hlt hcmp name hr' name hr ht ht)

/-- Where no value in a tree looks like a temporary, its code fills the temporaries in order,
without gaps. A temporary that is read was filled on one line, which comes before, and no temporary
is read twice. -/
theorem temporaries_disciplined (tree : Tree)
    (h : ∀ value, tree.Carries value → isTemporaryName value = false) :
    (∃ count, (analyzeTree tree).code.results.filter isTemporaryName =
        (List.range' 1 count).map Lowering.temporary) ∧
      (∀ line instruction place, (analyzeTree tree).code.get? line = some instruction →
        place ∈ instruction.operands → isTemporaryName place = true →
          ∃ first < line, ∀ other,
            (analyzeTree tree).assigned? other = some place ↔ other = first) ∧
      ((analyzeTree tree).code.operands.filter isTemporaryName).Nodup := by
  have hall : (analyzeTree tree).Disciplined [] :=
    Statement.disciplined_lowerList (Statement.listOfTree tree)
      (fun part hp text ht => h text (Statement.carries_of_mem_ownTexts tree hp ht))
      Lowering.disciplined_initial
  obtain ⟨count, -, hresults⟩ := hall.results
  have hnodup : (temporariesIn (analyzeTree tree).code.results).Nodup := by
    rw [hresults]
    exact List.Nodup.map (fun _ _ => temporary_inj) List.nodup_range'
  refine ⟨⟨count, hresults⟩, fun line instruction place hi hm ht => ?_, ?_⟩
  · obtain ⟨first, hlt, hfirst⟩ := hall.earlier line instruction place hi hm ht
    exact ⟨first, hlt, fun other => ⟨fun ho => Lowering.assigned?_unique hnodup ht ho hfirst,
      fun ho => ho ▸ hfirst⟩⟩
  · have hreads := hall.nodup
    rwa [List.append_nil] at hreads

/-- The declaration `int x = x + 1`, in a program that breaks off behind it. -/
def selfInitialized : Tree :=
  ⟨"Program", 1, none, [⟨"VariableDeclaration", 1, none, [⟨"TYPE", 1, some "int", []⟩,
    ⟨"ID", 1, some "x", []⟩, ⟨"Init", 1, none, [.bare "ASSIGNOP" 1, ⟨"Sum", 1, none,
      [⟨"ID", 1, some "x", []⟩,
        ⟨"SumTail", 1, none, [.bare "PLUS" 1, ⟨"INT", 1, some "1", []⟩]⟩]⟩]⟩]⟩]⟩

theorem temporaries_disciplined_selfInitialized :
    (∀ value, selfInitialized.Carries value → isTemporaryName value = false) ∧
      (analyzeTree selfInitialized).code.results = ["t1", "x"] ∧
      (analyzeTree selfInitialized).code.operands = ["x", "1", "t1"] ∧
      ∃ first < 2, ∀ other,
        (analyzeTree selfInitialized).assigned? other = some "t1" ↔ other = first := by
  have hlabels : ∀ label ∈ selfInitialized.labels,
      label.value.all (fun value => !isTemporaryName value) = true := by decide
  have hvalues : ∀ value, selfInitialized.Carries value → isTemporaryName value = false := by
    rintro value ⟨label, hl, hv⟩
    simpa [hv] using hlabels label hl
  have h := temporaries_disciplined selfInitialized hvalues
  exact ⟨hvalues, by decide +kernel, by decide +kernel,
    h.2.1 2 (.copy "t1" "x") "t1" (by decide +kernel) List.mem_cons_self (by decide)⟩

end FrontEnd
