import FrontEnd.Proofs.Lowering.Declarations
import FrontEnd.Proofs.Lowering.Statement
import FrontEnd.Proofs.Lowering.Temporaries
import FrontEnd.Proofs.Program.Guards
import Mathlib.Data.List.Nodup

/-! # Types in the code

Types are known only while expressions are lowered, but the code shows them again: a temporary has
the type of what fills it. Lowering without complaints makes code that joins and compares operands
of one type only.

* `Typing`, `Typing.HasType`: the types of literals, names and temporaries.
* `Typing.Accepts`: an instruction whose operands have types that go together.
* `Typing.IsClear`, `Typing.HasType.unique`: when no place has two types.
* `Lowering.IsTyped`: all instructions so far are accepted; each operation keeps this.
* `Expr.isTyped_lower`, `Guard.exists_isTyped`, `Statement.isTyped_lowerList`: so does all lowering
  without complaints.
-/

namespace FrontEnd
set_option autoImplicit false

/-! ## Types of places -/

/-- What the instruction reads. -/
def Instruction.operands : Instruction → List String
  | copy source _ => [source]
  | binary _ left right _ | jumpIf _ left right _ => [left, right]
  | jump _ => []
  | jumpNonZero condition _ => [condition]

/-- Relations and connectives give truth values. -/
def isTruthOperator (op : String) : Bool := isRelation op || op == "&&" || op == "||"

def IsTemporary (place : String) : Prop := ∃ number, place = Lowering.temporary number

/-- What the types in a piece of code depend on. -/
structure Typing where
  /-- The texts that are literals, with their types. -/
  literal : String → Ty → Prop
  symbols : SymbolTable
  code : Code

namespace Typing

/-- A literal has the type of its kind, a name the type in the symbol table, and a temporary the
type of what an instruction puts into it: of the source of a copy, `int` if it is a truth value, or
else of the left operand. -/
inductive HasType (Γ : Typing) : String → Ty → Prop
  | literal {place : String} {type : Ty} (h : Γ.literal place type) : HasType Γ place type
  | name {place : String} {type : Ty} (h : Γ.symbols.get? place = some type) :
      HasType Γ place type
  | copy {place source : String} {type : Ty} {line : Nat} (hp : IsTemporary place)
      (h : Γ.code.get? line = some (.copy source place)) (hs : HasType Γ source type) :
      HasType Γ place type
  | truth {place op left right : String} {line : Nat} (hp : IsTemporary place)
      (h : Γ.code.get? line = some (.binary op left right place))
      (ho : isTruthOperator op = true) : HasType Γ place .int
  | operation {place op left right : String} {type : Ty} {line : Nat} (hp : IsTemporary place)
      (h : Γ.code.get? line = some (.binary op left right place))
      (ho : isTruthOperator op = false) (hl : HasType Γ left type) : HasType Γ place type

/-- Some type is the type of both. -/
def Match (Γ : Typing) (left right : String) : Prop :=
  ∃ type, Γ.HasType left type ∧ Γ.HasType right type

def IsTarget (Γ : Typing) (place : String) : Prop :=
  place ∈ Γ.symbols.names ∨ IsTemporary place

/-- All operands have types, and two operands have the same; what is assigned to is a declared name
or a temporary. -/
def Accepts (Γ : Typing) : Instruction → Prop
  | .copy source result => (∃ type, Γ.HasType source type) ∧ Γ.IsTarget result
  | .binary _ left right result => Γ.Match left right ∧ Γ.IsTarget result
  | .jump _ => True
  | .jumpIf _ left right _ => Γ.Match left right
  | .jumpNonZero condition _ => ∃ type, Γ.HasType condition type

/-- A literal, a declared name or a temporary. -/
def IsPlace (Γ : Typing) (place : String) : Prop :=
  (∃ type, Γ.literal place type) ∨ place ∈ Γ.symbols.names ∨ IsTemporary place

theorem HasType.isPlace {Γ : Typing} {place : String} {type : Ty} (h : Γ.HasType place type) :
    Γ.IsPlace place := by
  cases h with
  | literal h => exact .inl ⟨type, h⟩
  | name h => exact .inr (.inl (SymbolTable.mem_names_of_get? h))
  | copy hp | truth hp | operation hp => exact .inr (.inr hp)

theorem Match.exists_hasType {Γ : Typing} {left right place : String} (h : Γ.Match left right)
    (hp : place ∈ [left, right]) : ∃ type, Γ.HasType place type := by
  obtain ⟨type, hl, hr⟩ := h
  rcases List.mem_pair.1 hp with rfl | rfl
  · exact ⟨type, hl⟩
  · exact ⟨type, hr⟩

section
variable {Γ : Typing} {instruction : Instruction} {place : String}

theorem Accepts.exists_hasType (h : Γ.Accepts instruction) (hp : place ∈ instruction.operands) :
    ∃ type, Γ.HasType place type := by
  cases instruction with
  | copy source result =>
    obtain rfl := List.mem_singleton.1 hp
    exact h.1
  | binary op left right result => exact Match.exists_hasType h.1 hp
  | jump target => exact absurd hp List.not_mem_nil
  | jumpIf op left right target => exact Match.exists_hasType h hp
  | jumpNonZero condition target =>
    obtain rfl := List.mem_singleton.1 hp
    exact h

theorem Accepts.isTarget (h : Γ.Accepts instruction) (hr : instruction.result? = some place) :
    Γ.IsTarget place := by
  cases instruction with
  | copy source result | binary op left right result =>
    obtain rfl := Option.some.inj hr
    exact h.2
  | jump | jumpIf | jumpNonZero => exact absurd hr (by simp [Instruction.result?])

theorem Accepts.isPlace (h : Γ.Accepts instruction)
    (hp : place ∈ instruction.operands ∨ instruction.result? = some place) : Γ.IsPlace place := by
  rcases hp with hp | hr
  · obtain ⟨type, ht⟩ := h.exists_hasType hp
    exact ht.isPlace
  · exact .inr (h.isTarget hr)

end

theorem accepts_patch (Γ : Typing) (target : Nat) (instruction : Instruction) :
    Γ.Accepts (instruction.patch target) ↔ Γ.Accepts instruction := by
  cases instruction <;> exact Iff.rfl

/-! ### Growth -/

/-- Names keep their types, and instructions that assign stay as they are. -/
structure Grows (Γ Δ : Typing) : Prop where
  literal : ∀ place type, Γ.literal place type → Δ.literal place type
  symbols : Γ.symbols.entries <+: Δ.symbols.entries
  assigning : ∀ line instruction, Γ.code.get? line = some instruction →
    instruction.result?.isSome → Δ.code.get? line = some instruction

section
variable {Γ Δ : Typing} {place : String} {type : Ty}

theorem HasType.mono (hg : Γ.Grows Δ) (h : Γ.HasType place type) : Δ.HasType place type := by
  induction h with
  | literal h => exact .literal (hg.literal _ _ h)
  | name h =>
    exact .name (SymbolTable.get?_eq_some_iff.2
      (hg.symbols.subset (SymbolTable.get?_eq_some_iff.1 h)))
  | copy hp h _ ih => exact .copy hp (hg.assigning _ _ h rfl) ih
  | truth hp h ho => exact .truth hp (hg.assigning _ _ h rfl) ho
  | operation hp h ho _ ih => exact .operation hp (hg.assigning _ _ h rfl) ho ih

theorem Match.mono {left right : String} (hg : Γ.Grows Δ) (h : Γ.Match left right) :
    Δ.Match left right := by
  obtain ⟨type, hl, hr⟩ := h
  exact ⟨type, hl.mono hg, hr.mono hg⟩

theorem IsTarget.mono (hg : Γ.Grows Δ) (h : Γ.IsTarget place) : Δ.IsTarget place :=
  h.imp_left fun hm => (hg.symbols.map (·.1)).subset hm

theorem Accepts.mono {instruction : Instruction} (hg : Γ.Grows Δ) (h : Γ.Accepts instruction) :
    Δ.Accepts instruction := by
  cases instruction with
  | copy source result => exact ⟨h.1.imp fun _ ht => ht.mono hg, h.2.mono hg⟩
  | binary op left right result => exact ⟨h.1.mono hg, h.2.mono hg⟩
  | jump target => trivial
  | jumpIf op left right target => exact Match.mono hg h
  | jumpNonZero condition target => exact h.imp fun _ ht => ht.mono hg

end

/-! ### One type -/

/-- Literals, names and temporaries cannot be mistaken for each other, no literal is of two types,
and no temporary is filled twice. -/
structure IsClear (Γ : Typing) : Prop where
  literal : ∀ place type other, Γ.literal place type → Γ.literal place other → type = other
  literal_name : ∀ place type, Γ.literal place type → place ∉ Γ.symbols.names
  literal_temporary : ∀ place type, Γ.literal place type → ¬ IsTemporary place
  name_temporary : ∀ place ∈ Γ.symbols.names, ¬ IsTemporary place
  filled : ∀ line other instruction instruction' place, IsTemporary place →
    Γ.code.get? line = some instruction → Γ.code.get? other = some instruction' →
    instruction.result? = some place → instruction'.result? = some place →
      instruction = instruction'

/-- No place has two types. -/
theorem HasType.unique {Γ : Typing} (hc : Γ.IsClear) {place : String} {type other : Ty}
    (h : Γ.HasType place type) (h' : Γ.HasType place other) : type = other := by
  induction h generalizing other with
  | literal h =>
    cases h' with
    | literal h' => exact hc.literal _ _ _ h h'
    | name h' => exact absurd (SymbolTable.mem_names_of_get? h') (hc.literal_name _ _ h)
    | copy hp | truth hp | operation hp => exact absurd hp (hc.literal_temporary _ _ h)
  | name h =>
    have hm := SymbolTable.mem_names_of_get? h
    cases h' with
    | literal h' => exact absurd hm (hc.literal_name _ _ h')
    | name h' => exact Option.some.inj (h.symm.trans h')
    | copy hp | truth hp | operation hp => exact absurd hp (hc.name_temporary _ hm)
  | copy hp h _ ih =>
    cases h' with
    | literal h' => exact absurd hp (hc.literal_temporary _ _ h')
    | name h' => exact absurd hp (hc.name_temporary _ (SymbolTable.mem_names_of_get? h'))
    | copy _ h' hs =>
      obtain ⟨rfl, -⟩ := Instruction.copy.inj (hc.filled _ _ _ _ _ hp h h' rfl rfl)
      exact ih hs
    | truth _ h' | operation _ h' =>
      exact Instruction.noConfusion (hc.filled _ _ _ _ _ hp h h' rfl rfl)
  | truth hp h ho =>
    cases h' with
    | literal h' => exact absurd hp (hc.literal_temporary _ _ h')
    | name h' => exact absurd hp (hc.name_temporary _ (SymbolTable.mem_names_of_get? h'))
    | copy _ h' => exact Instruction.noConfusion (hc.filled _ _ _ _ _ hp h h' rfl rfl)
    | truth => rfl
    | operation _ h' ho' =>
      obtain ⟨rfl, -⟩ := Instruction.binary.inj (hc.filled _ _ _ _ _ hp h h' rfl rfl)
      exact absurd (ho.symm.trans ho') (by simp)
  | operation hp h ho _ ih =>
    cases h' with
    | literal h' => exact absurd hp (hc.literal_temporary _ _ h')
    | name h' => exact absurd hp (hc.name_temporary _ (SymbolTable.mem_names_of_get? h'))
    | copy _ h' => exact Instruction.noConfusion (hc.filled _ _ _ _ _ hp h h' rfl rfl)
    | truth _ h' ho' =>
      obtain ⟨rfl, -⟩ := Instruction.binary.inj (hc.filled _ _ _ _ _ hp h h' rfl rfl)
      exact absurd (ho'.symm.trans ho) (by simp)
    | operation _ h' _ hl =>
      obtain ⟨-, rfl, -⟩ := Instruction.binary.inj (hc.filled _ _ _ _ _ hp h h' rfl rfl)
      exact ih hl

end Typing

/-! ## Operations -/

namespace Lowering
variable (literal : String → Ty → Prop)

def typing (s : Lowering) : Typing := ⟨literal, s.symbols, s.code⟩

/-- All instructions so far are accepted. -/
def IsTyped (s : Lowering) : Prop :=
  ∀ line instruction, s.code.get? line = some instruction →
    (s.typing literal).Accepts instruction

variable {literal} {s t : Lowering}

theorem Extends.grows (h : s.Extends t) : (s.typing literal).Grows (t.typing literal) where
  literal _ _ hl := hl
  symbols := h.symbols
  assigning line instruction hi _ := by
    have hlt : line < s.nextLine := Nat.lt_of_not_le fun hle =>
      absurd ((Code.get?_eq_none hle).symm.trans hi) (by simp)
    exact (h.get? line hlt).trans hi

theorem grows_patch (s : Lowering) (line target : Nat) :
    (s.typing literal).Grows ((s.patch line target).typing literal) where
  literal _ _ hl := hl
  symbols := List.prefix_rfl
  assigning other instruction hi hr := by
    refine (get?_patch ..).trans ?_
    rw [show s.code.get? other = some instruction from hi]
    split
    · cases instruction with
      | copy | binary => rfl
      | jump | jumpIf | jumpNonZero => exact absurd hr Bool.false_ne_true
    · rfl

theorem isTyped_initial : initial.IsTyped literal := by
  intro line instruction h
  rw [initial, Code.get?_empty] at h
  exact absurd h (by simp)

namespace IsTyped

theorem emit (h : s.IsTyped literal) {instruction : Instruction}
    (hi : (s.typing literal).Accepts instruction) : (s.emit instruction).IsTyped literal := by
  intro line other ho
  have hg : (s.typing literal).Grows _ := (s.extends_emit instruction).grows
  rw [get?_emit] at ho
  split at ho
  · obtain rfl := Option.some.inj ho
    exact hi.mono hg
  · exact (h line other ho).mono hg

theorem emitJump (h : s.IsTyped literal) (target : Option Nat) :
    (s.emit (.jump target)).IsTyped literal :=
  h.emit trivial

theorem emitFresh (h : s.IsTyped literal) {instruction : String → Instruction}
    (hi : (s.typing literal).Accepts (instruction (temporary s.nextTemporary))) :
    (s.emitFresh instruction).2.IsTyped literal :=
  h.emit hi

theorem patch (h : s.IsTyped literal) (line target : Nat) :
    (s.patch line target).IsTyped literal := by
  intro other instruction ho
  have hg : (s.typing literal).Grows _ := s.grows_patch line target
  rw [get?_patch] at ho
  split at ho
  · obtain ⟨old, hold, rfl⟩ := Option.map_eq_some_iff.1 ho
    exact (Typing.accepts_patch ..).2 ((h other old hold).mono hg)
  · exact (h other instruction ho).mono hg

theorem declare (h : s.IsTyped literal) {symbols : SymbolTable}
    (hs : s.symbols.entries <+: symbols.entries) (errors : List SemanticError) :
    IsTyped literal { s with symbols, errors := s.errors ++ errors } :=
  fun line instruction hi =>
    (h line instruction hi).mono (s.extends_declared hs errors).grows

theorem guarded (h : s.IsTyped literal) {jump : Instruction}
    (hj : (s.typing literal).Accepts jump) : (s.guarded jump).IsTyped literal :=
  ((h.emit hj).emitJump none).patch _ _

end IsTyped

/-- A name that is not declared is assigned to on one line at most. -/
theorem Accounts.line_eq {fills : List Fill} (h : initial.Accounts fills t) {name : String}
    (hn : name ∉ t.symbols.names) {line other : Nat} (hl : t.assigned? line = some name)
    (ho : t.assigned? other = some name) : line = other := by
  have hfill : ∀ line, t.assigned? line = some name → ⟨line, name⟩ ∈ fills := by
    intro line hl
    refine (h.assigned line name (Nat.pos_of_ne_zero fun hz => ?_) hl).resolve_right hn
    rw [hz, assigned?, Code.get?_zero] at hl
    exact absurd hl (by simp)
  have hnodup : (fills.map Fill.name).Nodup := by
    rw [h.names]
    exact List.Nodup.map (fun _ _ => temporary_inj) List.nodup_range'
  have heq := List.inj_on_of_nodup_map hnodup (hfill line hl) (hfill other ho) rfl
  exact congrArg Fill.line heq

theorem not_isTemporary_of_isName {name : String} (h : IsName name) : ¬ IsTemporary name := by
  rintro ⟨number, rfl⟩
  have hname := h.2
  rw [isTemporaryName_temporary] at hname
  exact Bool.noConfusion hname

/-- Names that are neither literals nor names of temporaries keep the places apart. -/
theorem Reaches.isClear (h : initial.Reaches t) (hn : ∀ name ∈ t.symbols.names, IsName name)
    (hl : ∀ place type, literal place type → isLiteral place = true)
    (hu : ∀ place type other, literal place type → literal place other → type = other) :
    (t.typing literal).IsClear where
  literal := hu
  literal_name place type hliteral hm := by
    have hname := (hn place hm).1
    rw [hl place type hliteral] at hname
    exact Bool.noConfusion hname
  literal_temporary place type hliteral := by
    rintro ⟨number, rfl⟩
    have hnot := hl _ _ hliteral
    rw [isLiteral_temporary] at hnot
    exact Bool.noConfusion hnot
  name_temporary place hm := not_isTemporary_of_isName (hn place hm)
  filled line other instruction instruction' place hp hi hi' hr hr' := by
    obtain ⟨fills, htrace⟩ := h
    have hfresh : place ∉ t.symbols.names := fun hm => not_isTemporary_of_isName (hn place hm) hp
    have hassigned : t.assigned? line = some place :=
      (congrArg (·.bind Instruction.result?) hi).trans hr
    have hassigned' : t.assigned? other = some place :=
      (congrArg (·.bind Instruction.result?) hi').trans hr'
    obtain rfl := htrace.accounts.line_eq hfresh hassigned hassigned'
    exact Option.some.inj (hi.symm.trans hi')

end Lowering

/-! ## Expressions -/

/-- Which types the texts of literals have. -/
def IsLiteralOf (literal : String → Ty → Prop) (symbol : Symbol) (text : String) : Prop :=
  (symbol = "INT" → literal text .int) ∧ (symbol = "FLOAT" → literal text .float)

section
variable {literal : String → Ty → Prop} {s : Lowering}

/-- Known types that are not complained about are the same. -/
theorem Lowering.checkTypes_eq {line : Nat} {left right : Operand} {type other : Ty}
    (hl : left.type = some type) (hr : right.type = some other)
    (he : (s.checkTypes line left right).errors = []) :
    type = other ∧ s.checkTypes line left right = s := by
  unfold checkTypes at he ⊢
  rw [hl, hr] at he ⊢
  dsimp only at he ⊢
  split at he
  · rename_i h
    exact ⟨h, if_pos h⟩
  · exact absurd he (s.errors_addError_ne_nil _ _)

theorem resultType_eq {op : String} {left right : Operand} {type : Ty}
    (h : left.type = some type) :
    resultType op left right = some (if isTruthOperator op then .int else type) := by
  rw [resultType, h, Option.some_or, ← isTruthOperator]
  split <;> rfl

/-- An operand whose type is known and is the type of its place. -/
def Lowering.HasOperand (literal : String → Ty → Prop) (s : Lowering) (operand : Operand)
    (type : Ty) : Prop :=
  operand.type = some type ∧ (s.typing literal).HasType operand.place type

theorem Lowering.hasType_binary {op left right : String} {type : Ty}
    (hl : (s.typing literal).HasType left type) :
    ((s.emitFresh (.binary op left right)).2.typing literal).HasType (temporary s.nextTemporary)
      (if isTruthOperator op then .int else type) := by
  have hget := s.get?_emit_self (.binary op left right (temporary s.nextTemporary))
  split
  · rename_i ho
    exact .truth ⟨_, rfl⟩ hget ho
  · rename_i ho
    exact .operation ⟨_, rfl⟩ hget (by simpa using ho) (hl.mono (s.extends_emitFresh _).grows)

/-- Without complaints an expression has a type, and this is the type of where its value is. -/
theorem Expr.isTyped_lower (e : Expr) (hl : e.Every (IsLiteralOf literal))
    (hs : s.IsTyped literal) (he : (e.lower s).2.errors = []) :
    (e.lower s).2.IsTyped literal ∧
      ∃ type, (e.lower s).2.HasOperand literal (e.lower s).1 type := by
  induction e generalizing s with
  | int text => exact ⟨hs, .int, rfl, .literal (hl.1 rfl)⟩
  | float text => exact ⟨hs, .float, rfl, .literal (hl.2 rfl)⟩
  | name line text =>
    unfold lower at he ⊢
    split at he
    · rename_i type hg
      exact ⟨hs, type, rfl, .name hg⟩
    · exact absurd he (s.errors_addError_ne_nil _ _)
  | binary op line left right ihl ihr =>
    rw [lower] at he ⊢
    dsimp only at he ⊢
    have hright := (right.adds_lower (left.lower s).2).toExtends
    have hcheck : ((right.lower (left.lower s).2).2.checkTypes line (left.lower s).1
        (right.lower (left.lower s).2).1).errors = [] := he
    have her := (Lowering.extends_checkTypes ..).errors_eq_nil hcheck
    obtain ⟨hs1, x, hx, hxt⟩ := ihl hl.1 hs (hright.errors_eq_nil her)
    obtain ⟨hs2, y, hy, hyt⟩ := ihr hl.2 hs1 her
    obtain ⟨rfl, hc⟩ := Lowering.checkTypes_eq hx hy hcheck
    rw [hc]
    have hleft := hxt.mono hright.grows
    exact ⟨hs2.emitFresh ⟨⟨x, hleft, hyt⟩, .inr ⟨_, rfl⟩⟩, _, resultType_eq hx,
      Lowering.hasType_binary hleft⟩

theorem Expr.isTyped_lowerValue (e : Expr) (hl : e.Every (IsLiteralOf literal))
    (hs : s.IsTyped literal) (he : (e.lowerValue s).2.errors = []) :
    (e.lowerValue s).2.IsTyped literal ∧
      ∃ type, ((e.lowerValue s).2.typing literal).HasType (e.lowerValue s).1 type := by
  unfold lowerValue at he ⊢
  dsimp only at he ⊢
  split at he
  · rename_i hc
    rw [if_pos hc]
    obtain ⟨hs', type, -, ht⟩ := e.isTyped_lower hl hs he
    exact ⟨hs', type, ht⟩
  · rename_i hc
    rw [if_neg hc]
    obtain ⟨hs', type, -, ht⟩ := e.isTyped_lower hl hs he
    refine ⟨hs'.emitFresh ⟨⟨type, ht⟩, .inr ⟨_, rfl⟩⟩, type, ?_⟩
    exact .copy ⟨_, rfl⟩ (Lowering.get?_emit_self ..) (ht.mono (Lowering.extends_emitFresh ..).grows)

/-- A whole guard ends in a jump that is accepted. -/
theorem Guard.exists_isTyped {guard : Guard} (hg : ∃ e, guard.IsTestOf e)
    (hl : guard.condition.Every (IsLiteralOf literal)) (s : Lowering) :
    ∃ t jump, s.Adds t [] ∧ guard.lower s = (t.nextLine, t.emit jump) ∧
      (s.IsTyped literal → t.errors = [] →
        t.IsTyped literal ∧ (t.typing literal).Accepts jump) := by
  obtain ⟨e, hg⟩ := hg
  rw [hg.condition] at hl
  cases guard with
  | compare op line left right =>
    obtain ⟨a, b, rfl, rfl, rfl⟩ := hg
    have hb := (b.adds_lower (a.lower s).2).toExtends
    refine ⟨_, _, ((a.adds_lower s).trans (b.adds_lower _)).trans (Lowering.adds_checkTypes ..),
      rfl, fun hs he => ?_⟩
    have heb := (Lowering.extends_checkTypes ..).errors_eq_nil he
    obtain ⟨hs1, x, hx, hxt⟩ := a.isTyped_lower hl.1 hs (hb.errors_eq_nil heb)
    obtain ⟨hs2, y, hy, hyt⟩ := b.isTyped_lower hl.2 hs1 heb
    obtain ⟨rfl, hc⟩ := Lowering.checkTypes_eq hx hy he
    rw [hc]
    exact ⟨hs2, x, hxt.mono hb.grows, hyt⟩
  | truth value =>
    obtain rfl : value = some e := hg
    exact ⟨_, _, e.adds_lowerValue s, rfl, fun hs he => e.isTyped_lowerValue hl hs he⟩

/-! ## Statements -/

theorem Lowering.isTyped_store {name : String} (hn : name ∈ s.symbols.names) {value : Expr}
    (hl : value.Every (IsLiteralOf literal)) (hs : s.IsTyped literal)
    (he : (s.store name (some value)).errors = []) :
    (s.store name (some value)).IsTyped literal := by
  have hv := (value.adds_lowerValue s).toExtends
  obtain ⟨hs', ht⟩ := value.isTyped_lowerValue hl hs he
  exact hs'.emit ⟨ht, .inl ((hv.symbols.map (·.1)).subset hn)⟩

theorem Assignment.isTyped_lower {assignment : Assignment}
    (hl : assignment.program.Every (IsLiteralOf literal)) (hs : s.IsTyped literal)
    (he : (assignment.lower s).errors = []) : (assignment.lower s).IsTyped literal := by
  unfold lower at he ⊢
  unfold program at hl
  split at he
  · rename_i hcontains
    rw [if_pos hcontains]
    split at he
    · exact absurd he (s.errors_addError_ne_nil _ _)
    · rename_i value hright
      rw [hright] at hl
      cases value with
      | none => exact hs
      | some value => exact Lowering.isTyped_store (SymbolTable.contains_iff.1 hcontains) hl.2 hs he
  · exact absurd he (s.errors_addError_ne_nil _ _)

theorem Assignment.isTyped_lowerStep {step : Option Assignment} {body : Program}
    (hl : ((step.map program).toList.foldl .seq body).Every (IsLiteralOf literal))
    (hs : s.IsTyped literal) (he : (lowerStep step s).errors = []) :
    (lowerStep step s).IsTyped literal := by
  cases step with
  | none => exact hs
  | some assignment => exact isTyped_lower hl.2 hs he

theorem Assignment.every_body {step : Option Assignment} {body : Program}
    (hl : ((step.map program).toList.foldl .seq body).Every (IsLiteralOf literal)) :
    body.Every (IsLiteralOf literal) := by
  cases step with
  | none => exact hl
  | some assignment => exact hl.1

theorem Declaration.isTyped_lower {declaration : Declaration}
    (hl : declaration.program.Every (IsLiteralOf literal)) (hs : s.IsTyped literal)
    (he : (declaration.lower s).errors = []) : (declaration.lower s).IsTyped literal := by
  unfold lower at he ⊢
  unfold program at hl
  split at he
  · exact absurd he (s.errors_addError_ne_nil _ _)
  · rename_i symbols hinsert
    dsimp only at he ⊢
    have hdeclared := hs.declare (SymbolTable.prefix_of_insert? hinsert)
      (Suffix.errors declaration.name declaration.suffixes)
    split at he
    · exact hdeclared
    · rename_i value hsome
      rw [hsome] at hl
      split at he
      · exact absurd he (Lowering.errors_addError_ne_nil _ _ _)
      · rename_i hscalar
        rw [if_neg hscalar]
        cases value with
        | none => exact hdeclared
        | some value =>
          -- Only the initializers of scalars are part of the program.
          rw [declaration.isArray_type] at hscalar
          have hsuffix : declaration.suffixes = [] := by simpa using hscalar
          rw [hsuffix] at hl
          exact Lowering.isTyped_store (SymbolTable.mem_names_of_insert? hinsert) hl.2 hdeclared he

theorem StructDefinition.isTyped_lower (definition : StructDefinition) (hs : s.IsTyped literal)
    (he : (definition.lower s).errors = []) : (definition.lower s).IsTyped literal := by
  unfold lower at he ⊢
  dsimp only at he ⊢
  split at he
  · exact absurd he (Lowering.errors_addError_ne_nil _ _ _)
  · rename_i symbols hinsert
    exact hs.declare (SymbolTable.prefix_of_insert? hinsert) _

/-! ### Control flow -/

namespace Statement

mutual

/-- Without complaints a statement with whole guards makes code that is accepted. -/
theorem isTyped_lower : ∀ (statement : Statement) {s : Lowering},
    (∀ part ∈ statement.parts, part.HasWholeGuard) →
    statement.program.Every (IsLiteralOf literal) → s.IsTyped literal →
    (statement.lower s).errors = [] → (statement.lower s).IsTyped literal
  | .declare declaration, s, _, hl, hs, he => by
    rw [lower] at he ⊢
    rw [program] at hl
    exact declaration.isTyped_lower hl hs he
  | .assign assignment, s, _, hl, hs, he => by
    rw [lower] at he ⊢
    rw [program] at hl
    exact assignment.isTyped_lower hl hs he
  | .define definition, s, _, _, hs, he => by
    rw [lower] at he ⊢
    exact definition.isTyped_lower hs he
  | .ifThen guard body, s, hg, hl, hs, he => by
    rw [parts, List.forall_mem_cons] at hg
    rw [program] at hl
    obtain ⟨t, jump, -, hlower, htyped⟩ := Guard.exists_isTyped hg.1 hl.1 s
    rw [lower_ifThen hlower] at he ⊢
    have hb := (adds_lowerList body (t.guarded jump)).toExtends
    obtain ⟨ht, hj⟩ := htyped hs (hb.errors_eq_nil he)
    exact (isTyped_lowerList body hg.2 hl.2.1 (ht.guarded hj) he).patch _ _
  | .ifElse guard body otherwise, s, hg, hl, hs, he => by
    rw [parts, List.forall_mem_cons, List.forall_mem_append] at hg
    rw [program] at hl
    obtain ⟨t, jump, -, hlower, htyped⟩ := Guard.exists_isTyped hg.1 hl.1 s
    rw [lower_ifElse hlower] at he ⊢
    have hb := (adds_lowerList body (t.guarded jump)).toExtends
    have ho := (adds_lowerList otherwise (afterFirst t jump body)).toExtends
    have heb : (lowerList body (t.guarded jump)).errors = [] := ho.errors_eq_nil he
    obtain ⟨ht, hj⟩ := htyped hs (hb.errors_eq_nil heb)
    have hbody := isTyped_lowerList body hg.2.1 hl.2.1 (ht.guarded hj) heb
    have hfirst : (afterFirst t jump body).IsTyped literal :=
      (hbody.emitJump none).patch _ _
    exact (isTyped_lowerList otherwise hg.2.2 hl.2.2 hfirst he).patch _ _
  | .loop guard body step, s, hg, hl, hs, he => by
    rw [parts, List.forall_mem_cons] at hg
    rw [program] at hl
    obtain ⟨t, jump, -, hlower, htyped⟩ := Guard.exists_isTyped hg.1 hl.1 s
    rw [lower_loop hlower] at he ⊢
    have hb := (adds_lowerList body (t.guarded jump)).toExtends
    have hr := (Assignment.adds_lowerStep step (lowerList body (t.guarded jump))).toExtends
    have heb := hr.errors_eq_nil he
    obtain ⟨ht, hj⟩ := htyped hs (hb.errors_eq_nil heb)
    have hbody := isTyped_lowerList body hg.2 (Assignment.every_body hl.2) (ht.guarded hj) heb
    have hround := Assignment.isTyped_lowerStep hl.2 hbody he
    exact (hround.emitJump _).patch _ _
  | .doWhile body none, s, hg, hl, hs, he => by
    rw [parts, List.forall_mem_cons] at hg
    rw [program] at hl
    rw [lower] at he ⊢
    exact isTyped_lowerList body hg.2 hl hs he
  | .doWhile body (some guard), s, hg, hl, hs, he => by
    rw [parts, List.forall_mem_cons] at hg
    rw [program] at hl
    obtain ⟨t, jump, hadds, hlower, htyped⟩ := Guard.exists_isTyped hg.1 hl.2 (lowerList body s)
    rw [lower_doWhile hlower] at he ⊢
    have hbody := isTyped_lowerList body hg.2 hl.1 hs (hadds.errors_eq_nil he)
    obtain ⟨ht, hj⟩ := htyped hbody he
    exact (ht.emit hj).patch _ _

theorem isTyped_lowerList : ∀ (statements : List Statement) {s : Lowering},
    (∀ part ∈ allParts statements, part.HasWholeGuard) →
    (programs statements).Every (IsLiteralOf literal) → s.IsTyped literal →
    (lowerList statements s).errors = [] → (lowerList statements s).IsTyped literal
  | [], s, _, _, hs, _ => by rwa [lowerList]
  | statement :: rest, s, hg, hl, hs, he => by
    rw [lowerList] at he ⊢
    rw [allParts, List.forall_mem_append] at hg
    rw [programs] at hl
    have hrest := (adds_lowerList rest (statement.lower s)).toExtends
    exact isTyped_lowerList rest hg.2 hl.2
      (isTyped_lower statement hg.1 hl.1 hs (hrest.errors_eq_nil he)) he

end

end Statement

end
end FrontEnd
