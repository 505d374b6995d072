import FrontEnd.Proofs.Grammar.Builtin
import FrontEnd.Proofs.Lowering.Growth
import FrontEnd.Proofs.Program.Variables
import FrontEnd.Proofs.Token.Values

/-! # Temporaries and variables

Temporaries are handed out in order, each once, and are the only names that the code of expressions
assigns to. Nothing keeps a program from declaring one of these names.

* `Lowering.ValueStep`, `Lowering.Step`: what expressions and statements do to a state, operation by
  operation, with the temporaries that are handed out.
* `Lowering.Accounts`, `Lowering.Accounts.step`, `Lowering.Trace.accounts`: what a sequence of these
  has assigned to.
* `Expr.exists_trace_lowerValue`, `Statement.reaches_lowerList`: lowering is such a sequence.
* `temporaries_fresh_iff`: when no variable has the name of a temporary that was handed out.
-/

namespace FrontEnd
set_option autoImplicit false

/-! ## Assignments -/

/-- The name that is assigned to. -/
def Instruction.result? : Instruction → Option String
  | copy _ result | binary _ _ _ result => some result
  | jump _ | jumpIf .. | jumpNonZero .. => none

theorem Instruction.result?_patch (line : Nat) (instruction : Instruction) :
    (instruction.patch line).result? = instruction.result? := by
  cases instruction <;> rfl

namespace Lowering

/-- The name that the instruction on this line assigns to. -/
def assigned? (s : Lowering) (line : Nat) : Option String :=
  (s.code.get? line).bind Instruction.result?

theorem assigned?_emit (s : Lowering) (instruction : Instruction) (line : Nat) :
    (s.emit instruction).assigned? line =
      if line = s.nextLine then instruction.result? else s.assigned? line := by
  unfold assigned?
  rw [get?_emit]
  split <;> rfl

theorem assigned?_patch (s : Lowering) (line target other : Nat) :
    (s.patch line target).assigned? other = s.assigned? other := by
  unfold assigned?
  rw [get?_patch]
  split
  · cases s.code.get? other with
    | none => rfl
    | some instruction => exact instruction.result?_patch target
  · rfl

theorem lt_nextLine_of_assigned? {s : Lowering} {line : Nat} {name : String}
    (h : s.assigned? line = some name) : line < s.nextLine := by
  refine Nat.lt_of_not_le fun hle => ?_
  rw [assigned?, Code.get?_eq_none hle] at h
  exact absurd h (by simp)

/-! ## Operations -/

/-- A temporary that was handed out, and the line of the instruction that fills it. -/
structure Fill where
  line : Nat
  name : String

/-- Expressions hand out temporaries and complain. -/
inductive ValueStep : Lowering → List Fill → Lowering → Prop
  | fresh (s : Lowering) {instruction : String → Instruction}
      (h : ∀ name, (instruction name).result? = some name) :
      ValueStep s [⟨s.nextLine, temporary s.nextTemporary⟩] (s.emitFresh instruction).2
  | complain (s : Lowering) (line : Nat) (fault : SemanticFault) :
      ValueStep s [] (s.addError line fault)

/-- Statements store into declared names, declare more of them, emit jumps and patch them. -/
inductive Step : Lowering → List Fill → Lowering → Prop
  | value {s t : Lowering} {fills : List Fill} (h : ValueStep s fills t) : Step s fills t
  | store (s : Lowering) (place : String) {name : String} (h : name ∈ s.symbols.names) :
      Step s [] (s.emit (.copy place name))
  | declare (s : Lowering) {symbols : SymbolTable}
      (h : s.symbols.entries <+: symbols.entries) (errors : List SemanticError) :
      Step s [] { s with symbols, errors := s.errors ++ errors }
  | jump (s : Lowering) {instruction : Instruction} (h : instruction.result? = none) :
      Step s [] (s.emit instruction)
  | patch (s : Lowering) (line target : Nat) : Step s [] (s.patch line target)

/-- Steps one after the other, with all that was handed out on the way. -/
inductive Trace (R : Lowering → List Fill → Lowering → Prop) :
    Lowering → List Fill → Lowering → Prop
  | refl (s : Lowering) : Trace R s [] s
  | step {s t u : Lowering} {fills more : List Fill} (h : Trace R s fills t)
      (hstep : R t more u) : Trace R s (fills ++ more) u

namespace Trace
variable {R : Lowering → List Fill → Lowering → Prop} {s t u : Lowering} {fills more : List Fill}

theorem trans (h : Trace R s fills t) (h' : Trace R t more u) : Trace R s (fills ++ more) u := by
  induction h' with
  | refl => rwa [List.append_nil]
  | step _ hstep ih =>
    rw [← List.append_assoc]
    exact ih.step hstep

theorem one (h : R s fills t) : Trace R s fills t := (refl s).step h

theorem mono {R' : Lowering → List Fill → Lowering → Prop}
    (hR : ∀ {s fills t}, R s fills t → R' s fills t) (h : Trace R s fills t) :
    Trace R' s fills t := by
  induction h with
  | refl => exact .refl _
  | step _ hstep ih => exact ih.step (hR hstep)

end Trace

/-! ## What was assigned to -/

/-- From `s` to `t` the temporaries in `fills` were handed out, in order. The new lines assign to
these, each on its line, and to declared names. -/
structure Accounts (s : Lowering) (fills : List Fill) (t : Lowering) : Prop where
  nextLine : s.nextLine ≤ t.nextLine
  nextTemporary : t.nextTemporary = s.nextTemporary + fills.length
  names : fills.map Fill.name = (List.range' s.nextTemporary fills.length).map temporary
  filled : ∀ fill ∈ fills, t.assigned? fill.line = some fill.name
  assigned : ∀ line name, s.nextLine ≤ line → t.assigned? line = some name →
    ⟨line, name⟩ ∈ fills ∨ name ∈ t.symbols.names

namespace Accounts
variable {s t u : Lowering} {fills : List Fill}

theorem refl (s : Lowering) : s.Accounts [] s where
  nextLine := Nat.le_refl _
  nextTemporary := rfl
  names := rfl
  filled := List.forall_mem_nil _
  assigned _ _ hl h := absurd (lt_nextLine_of_assigned? h) (Nat.not_lt.2 hl)

theorem assigned?_emit_of_fill (h : s.Accounts fills t) {fill : Fill} (hf : fill ∈ fills)
    (instruction : Instruction) : (t.emit instruction).assigned? fill.line = some fill.name := by
  have hfilled := h.filled fill hf
  rw [assigned?_emit, if_neg (Nat.ne_of_lt (lt_nextLine_of_assigned? hfilled))]
  exact hfilled

theorem fresh (h : s.Accounts fills t) {instruction : String → Instruction}
    (hi : ∀ name, (instruction name).result? = some name) :
    s.Accounts (fills ++ [⟨t.nextLine, temporary t.nextTemporary⟩])
      (t.emitFresh instruction).2 where
  nextLine := Nat.le_trans h.nextLine (t.extends_emitFresh instruction).nextLine
  nextTemporary := by
    rw [List.length_append, List.length_singleton, ← Nat.add_assoc, ← h.nextTemporary]
    rfl
  names := by
    rw [List.map_append, h.names, List.length_append, List.length_singleton, List.range'_concat,
      List.map_append, h.nextTemporary, Nat.one_mul]
    rfl
  filled fill hf := by
    rcases List.mem_append.1 hf with hf | hf
    · exact h.assigned?_emit_of_fill hf _
    · obtain rfl := List.mem_singleton.1 hf
      exact (t.assigned?_emit _ _).trans ((if_pos rfl).trans (hi _))
  assigned line name hl hn := by
    have hemit := (t.assigned?_emit (instruction (temporary t.nextTemporary)) line).symm.trans hn
    split at hemit
    · rename_i he
      rw [hi, Option.some.injEq] at hemit
      refine Or.inl (List.mem_append_right _ (List.mem_singleton.2 ?_))
      rw [he, hemit]
    · exact (h.assigned line name hl hemit).imp_left (List.mem_append_left _)

/-- An instruction that is not for an expression assigns to a declared name, if to any. -/
theorem emit (h : s.Accounts fills t) {instruction : Instruction}
    (hi : ∀ name, instruction.result? = some name → name ∈ t.symbols.names) :
    s.Accounts fills (t.emit instruction) where
  nextLine := Nat.le_trans h.nextLine (t.extends_emit instruction).nextLine
  nextTemporary := h.nextTemporary
  names := h.names
  filled fill hf := h.assigned?_emit_of_fill hf instruction
  assigned line name hl hn := by
    rw [assigned?_emit] at hn
    split at hn
    · exact Or.inr (hi name hn)
    · exact h.assigned line name hl hn

theorem declare (h : s.Accounts fills t) {symbols : SymbolTable}
    (hs : t.symbols.entries <+: symbols.entries) (errors : List SemanticError) :
    s.Accounts fills { t with symbols, errors := t.errors ++ errors } where
  nextLine := h.nextLine
  nextTemporary := h.nextTemporary
  names := h.names
  filled := h.filled
  assigned line name hl hn :=
    (h.assigned line name hl hn).imp_right fun hm => (hs.map (·.1)).subset hm

theorem patch (h : s.Accounts fills t) (line target : Nat) :
    s.Accounts fills (t.patch line target) where
  nextLine := by rw [nextLine_patch]; exact h.nextLine
  nextTemporary := h.nextTemporary
  names := h.names
  filled fill hf := (t.assigned?_patch ..).trans (h.filled fill hf)
  assigned other name hl hn := h.assigned other name hl ((t.assigned?_patch ..).symm.trans hn)

theorem step {more : List Fill} (h : s.Accounts fills t) (hstep : Step t more u) :
    s.Accounts (fills ++ more) u := by
  cases hstep with
  | value hvalue =>
    cases hvalue with
    | fresh hi => exact h.fresh hi
    | complain line fault =>
      rw [List.append_nil]
      exact h.declare List.prefix_rfl _
  | store place hm =>
    rw [List.append_nil]
    exact h.emit fun name hn => Option.some.inj hn ▸ hm
  | declare hs errors =>
    rw [List.append_nil]
    exact h.declare hs errors
  | jump hi =>
    rw [List.append_nil]
    exact h.emit fun name hn => absurd (hi.symm.trans hn) (by simp)
  | patch line target =>
    rw [List.append_nil]
    exact h.patch line target

end Accounts

theorem Trace.accounts {s t : Lowering} {fills : List Fill} (h : Trace Step s fills t) :
    s.Accounts fills t := by
  induction h with
  | refl => exact .refl _
  | step _ hstep ih => exact ih.step hstep

namespace Accounts
variable {s t : Lowering} {fills : List Fill}

theorem exists_name_iff (h : s.Accounts fills t) {name : String} :
    (∃ fill ∈ fills, fill.name = name) ↔
      ∃ number, s.nextTemporary ≤ number ∧ number < t.nextTemporary ∧ temporary number = name := by
  rw [← List.mem_map, h.names, h.nextTemporary, List.mem_map]
  simp only [List.mem_range'_1, and_assoc]

end Accounts

/-- Each new line fills a temporary that was handed out in between. -/
def FillsOnly (s t : Lowering) : Prop :=
  ∀ line, s.nextLine ≤ line → line < t.nextLine → ∃ number, s.nextTemporary ≤ number ∧
    number < t.nextTemporary ∧ t.assigned? line = some (temporary number)

theorem Trace.exists_fill {s t : Lowering} {fills : List Fill} (h : Trace ValueStep s fills t)
    {line : Nat} (hs : s.nextLine ≤ line) (ht : line < t.nextLine) :
    ∃ fill ∈ fills, fill.line = line := by
  induction h with
  | refl => exact absurd ht (Nat.not_lt.2 hs)
  | @step t u fills more _ hstep ih =>
    by_cases hl : line < t.nextLine
    · obtain ⟨fill, hf, he⟩ := ih hl
      exact ⟨fill, List.mem_append_left _ hf, he⟩
    · cases hstep with
      | fresh =>
        have hlast : line < t.nextLine + 1 := (t.nextLine_emit _) ▸ ht
        exact ⟨_, List.mem_append_right _ (List.mem_singleton_self _),
          Nat.le_antisymm (Nat.le_of_not_lt hl) (Nat.le_of_lt_succ hlast)⟩
      | complain => exact absurd ht hl

theorem Trace.fillsOnly {s t : Lowering} {fills : List Fill} (h : Trace ValueStep s fills t) :
    s.FillsOnly t := by
  intro line hs ht
  have haccounts := (h.mono .value).accounts
  obtain ⟨fill, hf, rfl⟩ := h.exists_fill hs ht
  obtain ⟨number, hfirst, hlast, hname⟩ := haccounts.exists_name_iff.1 ⟨fill, hf, rfl⟩
  exact ⟨number, hfirst, hlast, hname ▸ haccounts.filled fill hf⟩

/-! ## Expressions -/

theorem trace_checkTypes (s : Lowering) (line : Nat) (left right : Operand) :
    Trace ValueStep s [] (s.checkTypes line left right) := by
  unfold checkTypes
  split
  · split
    · exact .refl s
    · exact .one (.complain s _ _)
  · exact .refl s

end Lowering

open Lowering (Fill Trace ValueStep Step)

theorem Expr.exists_trace_lower (e : Expr) (s : Lowering) :
    ∃ fills, Trace ValueStep s fills (e.lower s).2 := by
  induction e generalizing s with
  | int text => exact ⟨[], .refl s⟩
  | float text => exact ⟨[], .refl s⟩
  | name line text =>
    unfold lower
    split
    · exact ⟨[], .refl s⟩
    · exact ⟨[], .one (.complain s _ _)⟩
  | binary op line left right ihl ihr =>
    obtain ⟨fills, hl⟩ := ihl s
    obtain ⟨more, hr⟩ := ihr (left.lower s).2
    rw [lower]
    exact ⟨_, ((hl.trans hr).trans (Lowering.trace_checkTypes ..)).step (.fresh _ fun _ => rfl)⟩

/-- The code of an expression fills temporaries and does nothing else. -/
theorem Expr.exists_trace_lowerValue (e : Expr) (s : Lowering) :
    ∃ fills, Trace ValueStep s fills (e.lowerValue s).2 := by
  obtain ⟨fills, h⟩ := e.exists_trace_lower s
  unfold lowerValue
  dsimp only
  split
  · exact ⟨fills, h⟩
  · exact ⟨_, h.step (.fresh _ fun _ => rfl)⟩

/-! ## Statements -/

namespace Lowering

/-- One state comes from the other by some steps. -/
def Reaches (s t : Lowering) : Prop := ∃ fills, Trace Step s fills t

namespace Reaches
variable {s t u : Lowering}

theorem refl (s : Lowering) : s.Reaches s := ⟨[], .refl s⟩

theorem trans (h : s.Reaches t) (h' : t.Reaches u) : s.Reaches u := by
  obtain ⟨fills, h⟩ := h
  obtain ⟨more, h'⟩ := h'
  exact ⟨_, h.trans h'⟩

theorem step {fills : List Fill} (h : s.Reaches t) (hstep : Step t fills u) : s.Reaches u :=
  h.trans ⟨fills, .one hstep⟩

theorem of_values (h : ∃ fills, Trace ValueStep s fills t) : s.Reaches t := by
  obtain ⟨fills, h⟩ := h
  exact ⟨fills, h.mono .value⟩

theorem names_subset (h : s.Reaches t) : s.symbols.names ⊆ t.symbols.names := by
  obtain ⟨fills, h⟩ := h
  induction h with
  | refl => exact List.Subset.refl _
  | step _ hstep ih =>
    refine List.Subset.trans ih ?_
    cases hstep with
    | value h => cases h <;> exact List.Subset.refl _
    | declare hs => exact (hs.map (·.1)).subset
    | store | jump | patch => exact List.Subset.refl _

end Reaches

theorem reaches_addError (s : Lowering) (line : Nat) (fault : SemanticFault) :
    s.Reaches (s.addError line fault) :=
  .of_values ⟨[], .one (.complain s line fault)⟩

theorem reaches_store {s : Lowering} {name : String} (hn : name ∈ s.symbols.names)
    (value : Option Expr) : s.Reaches (s.store name value) := by
  cases value with
  | none => exact .refl s
  | some value =>
    have hvalue := Reaches.of_values (value.exists_trace_lowerValue s)
    exact hvalue.step (.store _ _ (hvalue.names_subset hn))

end Lowering

theorem reaches_lowerOperand (e : Option Expr) (s : Lowering) :
    s.Reaches (lowerOperand e s).2 := by
  cases e with
  | none => exact .refl s
  | some e => exact .of_values (e.exists_trace_lower s)

/-- A guard ends in a jump. -/
theorem Guard.exists_reaches (guard : Guard) (s : Lowering) :
    ∃ t jump, s.Reaches t ∧ jump.result? = none ∧ guard.lower s = (t.nextLine, t.emit jump) := by
  cases guard with
  | compare op line left right =>
    have h := (reaches_lowerOperand left s).trans (reaches_lowerOperand right _)
    refine ⟨_, _, h.trans ?_, rfl, lower_compare op line left right s⟩
    unfold Lowering.compared
    split
    · exact .of_values ⟨[], Lowering.trace_checkTypes ..⟩
    · exact .refl _
  | truth value =>
    cases value with
    | none => exact ⟨s, _, .refl s, rfl, rfl⟩
    | some value => exact ⟨_, _, .of_values (value.exists_trace_lowerValue s), rfl, rfl⟩

theorem Assignment.reaches_lower (assignment : Assignment) (s : Lowering) :
    s.Reaches (assignment.lower s) := by
  unfold lower
  split
  · rename_i hc
    split
    · exact s.reaches_addError _ _
    · exact Lowering.reaches_store (SymbolTable.contains_iff.1 hc) _
  · exact s.reaches_addError _ _

theorem Assignment.reaches_lowerStep (step : Option Assignment) (s : Lowering) :
    s.Reaches (lowerStep step s) := by
  cases step with
  | none => exact .refl s
  | some assignment => exact assignment.reaches_lower s

theorem SymbolTable.mem_names_of_insert? {table other : SymbolTable} {name : String} {type : Ty}
    (h : table.insert? name type = some other) : name ∈ other.names := by
  rw [names, entries_of_insert? h, List.map_append]
  exact List.mem_append_right _ (List.mem_singleton_self _)

theorem Declaration.reaches_lower (declaration : Declaration) (s : Lowering) :
    s.Reaches (declaration.lower s) := by
  unfold lower
  split
  · exact s.reaches_addError _ _
  · rename_i symbols h
    have hd := (Lowering.Reaches.refl s).step (.declare s (SymbolTable.prefix_of_insert? h)
      (Suffix.errors declaration.name declaration.suffixes))
    dsimp only
    split
    · exact hd
    · split
      · exact hd.trans (Lowering.reaches_addError ..)
      · exact hd.trans (Lowering.reaches_store (SymbolTable.mem_names_of_insert? h) _)

theorem StructDefinition.reaches_lower (definition : StructDefinition) (s : Lowering) :
    s.Reaches (definition.lower s) := by
  unfold lower
  dsimp only
  split
  · exact ((Lowering.Reaches.refl s).step (.declare s List.prefix_rfl _)).trans
      (Lowering.reaches_addError ..)
  · rename_i symbols h
    exact (Lowering.Reaches.refl s).step (.declare s (SymbolTable.prefix_of_insert? h) _)

theorem Lowering.reaches_guarded (t : Lowering) {jump : Instruction} (hj : jump.result? = none) :
    t.Reaches (t.guarded jump) :=
  (((Reaches.refl t).step (.jump t hj)).step (.jump _ rfl)).step (.patch ..)

namespace Statement

mutual

theorem reaches_lower : ∀ (statement : Statement) (s : Lowering), s.Reaches (statement.lower s)
  | .declare declaration, s => by
    rw [lower]
    exact declaration.reaches_lower s
  | .assign assignment, s => by
    rw [lower]
    exact assignment.reaches_lower s
  | .define definition, s => by
    rw [lower]
    exact definition.reaches_lower s
  | .ifThen guard body, s => by
    obtain ⟨t, jump, ht, hj, he⟩ := guard.exists_reaches s
    rw [lower_ifThen he]
    have hb := (ht.trans (t.reaches_guarded hj)).trans (reaches_lowerList body _)
    exact hb.step (.patch ..)
  | .ifElse guard body otherwise, s => by
    obtain ⟨t, jump, ht, hj, he⟩ := guard.exists_reaches s
    rw [lower_ifElse he]
    have hb := (ht.trans (t.reaches_guarded hj)).trans (reaches_lowerList body _)
    have hfirst : s.Reaches (afterFirst t jump body) := (hb.step (.jump _ rfl)).step (.patch ..)
    exact (hfirst.trans (reaches_lowerList otherwise _)).step (.patch ..)
  | .loop guard body step, s => by
    obtain ⟨t, jump, ht, hj, he⟩ := guard.exists_reaches s
    rw [lower_loop he]
    have hb := (ht.trans (t.reaches_guarded hj)).trans (reaches_lowerList body _)
    have hstep := hb.trans (Assignment.reaches_lowerStep step _)
    exact (hstep.step (.jump _ rfl)).step (.patch ..)
  | .doWhile body none, s => by
    rw [lower]
    exact reaches_lowerList body s
  | .doWhile body (some guard), s => by
    obtain ⟨t, jump, ht, hj, he⟩ := guard.exists_reaches (lowerList body s)
    rw [lower_doWhile he]
    exact (((reaches_lowerList body s).trans ht).step (.jump t hj)).step (.patch ..)

theorem reaches_lowerList :
    ∀ (statements : List Statement) (s : Lowering), s.Reaches (lowerList statements s)
  | [], s => by
    rw [lowerList]
    exact .refl s
  | statement :: rest, s => by
    rw [lowerList]
    exact (reaches_lower statement s).trans (reaches_lowerList rest _)

end

end Statement

/-! ## Source texts -/

/-- The names of the declared variables. -/
def Compilation.declared (c : Compilation) : List String :=
  Statement.allDeclared (Statement.listOfTree c.parsed.tree)

/-- A variable has its name from a token that is not a string. -/
theorem isTemporaryName_of_mem_declared {source name : String}
    (hnames : ∀ token ∈ (tokenize source).1, token.category = .identifier →
      isTemporaryName token.lexeme = false)
    (h : name ∈ (compile .builtin source).declared) : isTemporaryName name = false := by
  obtain ⟨label, hl, hv⟩ := Statement.carries_of_mem_allDeclared _ h
  obtain ⟨huses, hlabel⟩ := isLabel_of_mem_parse _ _ hl
  rcases hlabel with hlabel | hlabel
  · rw [hlabel] at hv
    exact absurd hv (by simp)
  · obtain ⟨token, ht, rfl⟩ := List.mem_map.1 hlabel
    refine isTemporaryName_value_of_mem_tokenize ht (hnames token ht) (fun hc => ?_) hv
    have hsymbol : (Terminal.ofToken token).symbol = "STRING" := congrArg Category.name hc
    have hstring : ¬ Grammar.expanded.Uses "STRING" := by
      unfold Grammar.Uses
      decide +kernel
    rw [hsymbol, Grammar.normalized_builtin] at huses
    exact hstring huses

/-- Whatever the source text, temporaries are handed out one after the other from `t1` on; the code
assigns to each on its line, and all else it assigns to was declared. They are fresh exactly if no
variable has the name of one of them, and they are if no identifier is a `t` and digits. The code of
an expression only fills temporaries of its own. -/
theorem temporaries_fresh_iff (source : String) :
    (∃ fills, Trace Step .initial fills (compile .builtin source).lowered ∧
      Lowering.Accounts .initial fills (compile .builtin source).lowered ∧
      ((∀ fill ∈ fills, fill.name ∉ (compile .builtin source).declared) ↔
        ∀ number, Lowering.temporary number ∈ (compile .builtin source).declared →
          number = 0 ∨ fills.length < number) ∧
      ((∀ token ∈ (tokenize source).1, token.category = .identifier →
          isTemporaryName token.lexeme = false) →
        ∀ fill ∈ fills, fill.name ∉ (compile .builtin source).declared)) ∧
      ∀ (e : Expr) (s : Lowering), s.FillsOnly (e.lower s).2 ∧ s.FillsOnly (e.lowerValue s).2 := by
  obtain ⟨fills, htrace⟩ : Lowering.Reaches .initial (compile .builtin source).lowered :=
    Statement.reaches_lowerList _ .initial
  have haccounts := htrace.accounts
  have hcount : (compile .builtin source).lowered.nextTemporary = 1 + fills.length :=
    haccounts.nextTemporary
  refine ⟨⟨fills, htrace, haccounts, ⟨fun hfresh number hn => ?_, fun hfar fill hf hm => ?_⟩,
    fun hnames fill hf hm => ?_⟩, fun e s => ?_⟩
  · by_cases hin : 1 ≤ number ∧ number < (compile .builtin source).lowered.nextTemporary
    · obtain ⟨fill, hf, he⟩ := haccounts.exists_name_iff.2 ⟨number, hin.1, hin.2, rfl⟩
      exact absurd (he ▸ hn) (hfresh fill hf)
    · omega
  · obtain ⟨number, hfirst, hlast, he⟩ := haccounts.exists_name_iff.1 ⟨fill, hf, rfl⟩
    have hpositive : 1 ≤ number := hfirst
    have := hfar number (he ▸ hm)
    omega
  · obtain ⟨number, -, -, he⟩ := haccounts.exists_name_iff.1 ⟨fill, hf, rfl⟩
    have hno := isTemporaryName_of_mem_declared hnames hm
    rw [← he, isTemporaryName_temporary] at hno
    exact absurd hno (by simp)
  · obtain ⟨_, hlower⟩ := e.exists_trace_lower s
    obtain ⟨_, hvalue⟩ := e.exists_trace_lowerValue s
    exact ⟨hlower.fillsOnly, hvalue.fillsOnly⟩

def clashing : String := "int t2 = 5; int b = 1;"

/-- The value of `b` is computed in the variable `t2`. -/
theorem temporary_clash :
    (compile .builtin clashing).diagnostics = [] ∧
      ∃ fills, Trace Step .initial fills (compile .builtin clashing).lowered ∧
        (∃ fill ∈ fills, fill.name = "t2") ∧ "t2" ∈ (compile .builtin clashing).declared ∧
        (compile .builtin clashing).lowered.code.get? 3 = some (.copy "1" "t2") := by
  have hcompiled : (compile .builtin clashing).diagnostics = [] ∧
      "t2" ∈ (compile .builtin clashing).declared ∧
      (compile .builtin clashing).lowered.code.get? 3 = some (.copy "1" "t2") ∧
      (compile .builtin clashing).lowered.nextTemporary = 3 := by decide +kernel
  obtain ⟨hclean, hdeclared, hcode, hcount⟩ := hcompiled
  obtain ⟨fills, htrace⟩ : Lowering.Reaches .initial (compile .builtin clashing).lowered :=
    Statement.reaches_lowerList _ .initial
  refine ⟨hclean, fills, htrace, ?_, hdeclared, hcode⟩
  refine htrace.accounts.exists_name_iff.2 ⟨2, Nat.le_succ 1, ?_, by decide⟩
  rw [hcount]
  decide

end FrontEnd
