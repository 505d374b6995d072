import FrontEnd.Proofs.Lowering.Growth

/-! # What declarations do

Whatever else is lowered, only declarations change the symbols or are complained about for what
they declare, and they do so one after the other, in the order of the statements.

* `Declarator`: a statement that declares; `Statement.allDeclarators`: all of them in a program.
* `Register.declare`: one declaration; the first one of a name counts, later ones are complaints.
* `Statement.register_lowerList`: lowering a program declares what is declared in it.
* `Declared`, `Scope`: the part of this that names and types are about.
* `Declared.firsts`, `Declared.repeats`, `Scope.declareAll_eq`: what a list of declarations does.
-/

namespace FrontEnd
set_option autoImplicit false

/-! ## The symbol table -/

namespace SymbolTable
variable {table other : SymbolTable} {name : String} {type : Ty}

/-- The index leads to the entry of each name, and to nothing else. -/
theorem get?_eq_some_iff : table.get? name = some type ↔ (name, type) ∈ table.entries := by
  unfold get?
  simp only [Option.bind_eq_bind, Option.bind_eq_some_iff, table.indexed, List.getElem?_map,
    Option.map_eq_some_iff]
  constructor
  · rintro ⟨place, ⟨found, hfound, rfl⟩, entry, hentry, htype⟩
    obtain rfl : found = entry := Option.some.inj (hfound.symm.trans hentry)
    obtain rfl : found.2 = type := Option.some.inj htype
    exact List.mem_of_getElem? hentry
  · intro h
    obtain ⟨place, hplace⟩ := List.getElem?_of_mem h
    exact ⟨place, ⟨_, hplace, rfl⟩, _, hplace, rfl⟩

theorem mem_names_of_get? (h : table.get? name = some type) : name ∈ table.names :=
  List.mem_map_of_mem (get?_eq_some_iff.1 h)

theorem insert?_eq_none_iff : table.insert? name type = none ↔ name ∈ table.names := by
  rw [← contains_iff]
  unfold insert?
  split <;> simp [*]

theorem names_of_insert? (h : table.insert? name type = some other) :
    other.names = table.names ++ [name] := by
  rw [names, entries_of_insert? h, List.map_append]
  rfl

end SymbolTable

/-! ## Declarations -/

/-- A declared name with its type, and the line of its declaration. -/
structure Declared where
  line : Nat
  name : String
  type : Ty
deriving DecidableEq, Repr

/-- The complaint about a declaration whose name is taken. -/
def Declared.redeclared (d : Declared) : SemanticError := ⟨d.line, .redeclaration d.name⟩

def StructDefinition.type (definition : StructDefinition) : Ty :=
  .record (members definition.name [] definition.fields).1

/-- A statement that declares a name. -/
inductive Declarator where
  | declare (declaration : Declaration)
  | define (definition : StructDefinition)
deriving DecidableEq, Repr

namespace Declarator

def declared : Declarator → Declared
  | declare declaration => ⟨declaration.line, declaration.name, declaration.type⟩
  | define definition => ⟨definition.line, definition.name, definition.type⟩

/-- The complaints about what is declared with a new name. -/
def accepted : Declarator → List SemanticError
  | declare declaration => Suffix.errors declaration.name declaration.suffixes
  | define definition => (StructDefinition.members definition.name [] definition.fields).2

/-- The complaints when the name is taken. Sizes are not looked at then, but fields are. -/
def refused : Declarator → List SemanticError
  | declare declaration => [(declare declaration).declared.redeclared]
  | define definition => (define definition).accepted ++ [(define definition).declared.redeclared]

end Declarator

namespace Statement

mutual

/-- The declarations in a statement and in the bodies inside it, in the order of the text. -/
def declarators : Statement → List Declarator
  | declare declaration => [.declare declaration]
  | define definition => [.define definition]
  | assign _ => []
  | ifThen _ body | loop _ body _ | doWhile body _ => allDeclarators body
  | ifElse _ body otherwise => allDeclarators body ++ allDeclarators otherwise

def allDeclarators : List Statement → List Declarator
  | [] => []
  | statement :: rest => statement.declarators ++ allDeclarators rest

end

theorem allDeclarators_append (program rest : List Statement) :
    allDeclarators (program ++ rest) = allDeclarators program ++ allDeclarators rest := by
  induction program with
  | nil => rw [List.nil_append, allDeclarators, List.nil_append]
  | cons statement program ih =>
    rw [List.cons_append, allDeclarators, allDeclarators, ih, List.append_assoc]

end Statement

/-! ## Registers -/

/-- Whether a complaint is about what is declared, and not about a value. -/
def SemanticError.isDeclarative (error : SemanticError) : Bool :=
  match error.fault with
  | .redeclaration _ | .invalidSize _ _ | .duplicateField _ _ => true
  | _ => false

/-- What declarations bear on. -/
structure Register where
  symbols : SymbolTable
  complaints : List SemanticError

def Register.empty : Register := ⟨.empty, []⟩

def Register.declare (register : Register) (d : Declarator) : Register :=
  match register.symbols.insert? d.declared.name d.declared.type with
  | none => { register with complaints := register.complaints ++ d.refused }
  | some symbols => ⟨symbols, register.complaints ++ d.accepted⟩

theorem Register.declare_of_none (register : Register) (d : Declarator)
    (h : register.symbols.insert? d.declared.name d.declared.type = none) :
    register.declare d = { register with complaints := register.complaints ++ d.refused } := by
  unfold declare
  rw [h]

theorem Register.declare_of_some (register : Register) (d : Declarator) {symbols : SymbolTable}
    (h : register.symbols.insert? d.declared.name d.declared.type = some symbols) :
    register.declare d = ⟨symbols, register.complaints ++ d.accepted⟩ := by
  unfold declare
  rw [h]

def Register.declareAll (register : Register) (ds : List Declarator) : Register :=
  ds.foldl Register.declare register

theorem Register.declareAll_append (register : Register) (ds rest : List Declarator) :
    register.declareAll (ds ++ rest) = (register.declareAll ds).declareAll rest :=
  List.foldl_append

namespace Lowering

def register (s : Lowering) : Register := ⟨s.symbols, s.errors.filter (·.isDeclarative)⟩

variable (s : Lowering)

theorem symbols_register : s.register.symbols = s.symbols := rfl

/-! ## Single operations -/

@[simp] theorem register_emit (instruction : Instruction) :
    (s.emit instruction).register = s.register := rfl

@[simp] theorem register_patch (line target : Nat) : (s.patch line target).register = s.register :=
  rfl

@[simp] theorem register_guarded (jump : Instruction) : (s.guarded jump).register = s.register :=
  rfl

theorem register_addErrors (symbols : SymbolTable) (errors : List SemanticError)
    (h : ∀ error ∈ errors, error.isDeclarative = true) :
    register { s with symbols, errors := s.errors ++ errors } =
      ⟨symbols, s.register.complaints ++ errors⟩ := by
  unfold register
  rw [List.filter_append, List.filter_eq_self.2 h]

theorem register_addError {line : Nat} {fault : SemanticFault}
    (h : SemanticError.isDeclarative ⟨line, fault⟩ = false) :
    (s.addError line fault).register = s.register := by
  unfold register addError
  rw [List.filter_append, List.filter_cons_of_neg (by simp [h]), List.filter_nil, List.append_nil]

@[simp] theorem register_checkTypes (line : Nat) (left right : Operand) :
    (s.checkTypes line left right).register = s.register := by
  unfold checkTypes
  split
  · split
    · rfl
    · exact s.register_addError rfl
  · rfl

@[simp] theorem register_compared (line : Nat) (left right : Option Operand) :
    (s.compared line left right).register = s.register := by
  unfold compared
  split
  · exact s.register_checkTypes _ _ _
  · rfl

end Lowering

/-! ## Expressions and stores -/

@[simp] theorem Expr.register_lower (e : Expr) (s : Lowering) :
    (e.lower s).2.register = s.register := by
  induction e generalizing s with
  | int text | float text => rfl
  | name line text =>
    unfold lower
    split
    · rfl
    · exact s.register_addError rfl
  | binary op line left right ihl ihr =>
    rw [lower]
    exact (Lowering.register_checkTypes ..).trans ((ihr _).trans (ihl s))

@[simp] theorem Expr.register_lowerValue (e : Expr) (s : Lowering) :
    (e.lowerValue s).2.register = s.register := by
  unfold lowerValue
  dsimp only
  split
  · exact e.register_lower s
  · exact e.register_lower s

@[simp] theorem register_lowerOperand (e : Option Expr) (s : Lowering) :
    (lowerOperand e s).2.register = s.register := by
  cases e with
  | none => rfl
  | some e => exact e.register_lower s

theorem Guard.exists_register_eq (guard : Guard) (s : Lowering) :
    ∃ (t : Lowering) (jump : Instruction),
      t.register = s.register ∧ guard.lower s = (t.nextLine, t.emit jump) := by
  cases guard with
  | compare op line left right =>
    refine ⟨_, _, ?_, lower_compare op line left right s⟩
    rw [Lowering.register_compared, register_lowerOperand, register_lowerOperand]
  | truth value =>
    cases value with
    | none => exact ⟨s, _, rfl, rfl⟩
    | some value => exact ⟨_, _, value.register_lowerValue s, rfl⟩

@[simp] theorem Lowering.register_store (s : Lowering) (name : String) (value : Option Expr) :
    (s.store name value).register = s.register := by
  cases value with
  | none => rfl
  | some value => exact value.register_lowerValue s

@[simp] theorem Assignment.register_lower (assignment : Assignment) (s : Lowering) :
    (assignment.lower s).register = s.register := by
  unfold lower
  split
  · split
    · exact s.register_addError rfl
    · exact s.register_store _ _
  · exact s.register_addError rfl

@[simp] theorem Assignment.register_lowerStep (step : Option Assignment) (s : Lowering) :
    (lowerStep step s).register = s.register := by
  cases step with
  | none => rfl
  | some assignment => exact assignment.register_lower s

/-! ## Single declarations -/

theorem StructDefinition.exists_duplicate {definition : String} {taken : List (String × Ty)}
    {fields : List Field} {error : SemanticError}
    (h : error ∈ (members definition taken fields).2) :
    ∃ line field, error = ⟨line, .duplicateField field definition⟩ := by
  induction fields generalizing taken with
  | nil => exact absurd h List.not_mem_nil
  | cons field fields ih =>
    rw [members] at h
    split at h
    · rcases List.mem_cons.1 h with rfl | h
      · exact ⟨_, _, rfl⟩
      · exact ih h
    · exact ih h

theorem Declarator.isDeclarative_of_mem_accepted {d : Declarator} {error : SemanticError}
    (h : error ∈ d.accepted) : error.isDeclarative = true := by
  cases d with
  | declare declaration =>
    obtain ⟨suffix, -, rfl⟩ := List.mem_map.1 h
    rfl
  | define definition =>
    obtain ⟨line, field, rfl⟩ := StructDefinition.exists_duplicate h
    rfl

theorem Declarator.isDeclarative_of_mem_refused {d : Declarator} {error : SemanticError}
    (h : error ∈ d.refused) : error.isDeclarative = true := by
  cases d with
  | declare declaration =>
    obtain rfl := List.mem_singleton.1 h
    rfl
  | define definition =>
    rcases List.mem_append.1 h with h | h
    · exact isDeclarative_of_mem_accepted h
    · obtain rfl := List.mem_singleton.1 h
      rfl

theorem Declaration.register_lower (declaration : Declaration) (s : Lowering) :
    (declaration.lower s).register = s.register.declare (.declare declaration) := by
  unfold lower
  split
  · rename_i hi
    rw [s.register.declare_of_none (.declare declaration) hi]
    exact s.register_addErrors s.symbols (Declarator.declare declaration).refused
      fun _ => Declarator.isDeclarative_of_mem_refused
  · rename_i symbols hi
    rw [s.register.declare_of_some (.declare declaration) hi]
    have hd := s.register_addErrors symbols (Declarator.declare declaration).accepted
      fun _ => Declarator.isDeclarative_of_mem_accepted
    dsimp only
    split
    · exact hd
    · split
      · exact (Lowering.register_addError _ rfl).trans hd
      · exact (Lowering.register_store ..).trans hd

theorem StructDefinition.register_lower (definition : StructDefinition) (s : Lowering) :
    (definition.lower s).register = s.register.declare (.define definition) := by
  unfold lower Lowering.addError
  dsimp only
  split
  · rename_i hi
    rw [s.register.declare_of_none (.define definition) hi, List.append_assoc]
    exact s.register_addErrors s.symbols (Declarator.define definition).refused
      fun _ => Declarator.isDeclarative_of_mem_refused
  · rename_i symbols hi
    rw [s.register.declare_of_some (.define definition) hi]
    exact s.register_addErrors symbols (Declarator.define definition).accepted
      fun _ => Declarator.isDeclarative_of_mem_accepted

/-! ## Control flow -/

namespace Statement

mutual

/-- Only the declarations in a statement bear on the register, in the order of the text. -/
theorem register_lower : ∀ (statement : Statement) (s : Lowering),
    (statement.lower s).register = s.register.declareAll statement.declarators
  | .declare declaration, s => by
    rw [lower, declarators]
    exact declaration.register_lower s
  | .assign assignment, s => by
    rw [lower, declarators]
    exact assignment.register_lower s
  | .define definition, s => by
    rw [lower, declarators]
    exact definition.register_lower s
  | .ifThen guard body, s => by
    obtain ⟨t, jump, ht, he⟩ := guard.exists_register_eq s
    rw [lower_ifThen he, declarators, Lowering.register_patch, register_lowerList body,
      Lowering.register_guarded, ht]
  | .ifElse guard body otherwise, s => by
    obtain ⟨t, jump, ht, he⟩ := guard.exists_register_eq s
    have hfirst : (afterFirst t jump body).register =
        s.register.declareAll (allDeclarators body) := by
      rw [afterFirst, Lowering.register_patch, Lowering.register_emit, register_lowerList body,
        Lowering.register_guarded, ht]
    rw [lower_ifElse he, declarators, Lowering.register_patch, register_lowerList otherwise,
      hfirst, Register.declareAll_append]
  | .loop guard body step, s => by
    obtain ⟨t, jump, ht, he⟩ := guard.exists_register_eq s
    rw [lower_loop he, declarators, Lowering.register_patch, Lowering.register_emit,
      Assignment.register_lowerStep, register_lowerList body, Lowering.register_guarded, ht]
  | .doWhile body none, s => by
    rw [lower, declarators]
    exact register_lowerList body s
  | .doWhile body (some guard), s => by
    obtain ⟨t, jump, ht, he⟩ := guard.exists_register_eq (lowerList body s)
    rw [lower_doWhile he, declarators, Lowering.register_patch, Lowering.register_emit, ht,
      register_lowerList body]

theorem register_lowerList : ∀ (statements : List Statement) (s : Lowering),
    (lowerList statements s).register = s.register.declareAll (allDeclarators statements)
  | [], s => by
    rw [lowerList, allDeclarators]
    rfl
  | statement :: rest, s => by
    rw [lowerList, allDeclarators, Register.declareAll_append, register_lowerList rest,
      register_lower statement]

end

end Statement

/-! ## Scopes -/

def SemanticError.isRedeclaration (error : SemanticError) : Bool :=
  match error.fault with
  | .redeclaration _ => true
  | _ => false

/-- What the names and the types of declarations bear on. -/
structure Scope where
  symbols : SymbolTable
  redeclarations : List SemanticError

def Scope.empty : Scope := ⟨.empty, []⟩

def Scope.declare (scope : Scope) (d : Declared) : Scope :=
  match scope.symbols.insert? d.name d.type with
  | none => { scope with redeclarations := scope.redeclarations ++ [d.redeclared] }
  | some symbols => { scope with symbols }

theorem Scope.declare_of_none (scope : Scope) (d : Declared)
    (h : scope.symbols.insert? d.name d.type = none) :
    scope.declare d = { scope with redeclarations := scope.redeclarations ++ [d.redeclared] } := by
  unfold declare
  rw [h]

theorem Scope.declare_of_some (scope : Scope) (d : Declared) {symbols : SymbolTable}
    (h : scope.symbols.insert? d.name d.type = some symbols) :
    scope.declare d = { scope with symbols } := by
  unfold declare
  rw [h]

def Scope.declareAll (scope : Scope) (ds : List Declared) : Scope := ds.foldl Scope.declare scope

def Lowering.scope (s : Lowering) : Scope := ⟨s.symbols, s.errors.filter (·.isRedeclaration)⟩

theorem Lowering.symbols_scope (s : Lowering) : s.scope.symbols = s.symbols := rfl

/-- A part of the register. -/
def Register.scope (register : Register) : Scope :=
  ⟨register.symbols, register.complaints.filter (·.isRedeclaration)⟩

theorem Lowering.scope_register (s : Lowering) : s.register.scope = s.scope := by
  unfold register Register.scope scope
  rw [List.filter_filter]
  refine congrArg (Scope.mk s.symbols) (List.filter_congr fun error _ => ?_)
  obtain ⟨line, fault⟩ := error
  cases fault <;> rfl

theorem Declarator.filter_accepted (d : Declarator) :
    d.accepted.filter (·.isRedeclaration) = [] := by
  refine List.filter_eq_nil_iff.2 fun error h => ?_
  cases d with
  | declare declaration =>
    obtain ⟨suffix, -, rfl⟩ := List.mem_map.1 h
    exact Bool.false_ne_true
  | define definition =>
    obtain ⟨line, field, rfl⟩ := StructDefinition.exists_duplicate h
    exact Bool.false_ne_true

theorem Declarator.filter_refused (d : Declarator) :
    d.refused.filter (·.isRedeclaration) = [d.declared.redeclared] := by
  cases d with
  | declare declaration => rfl
  | define definition =>
    rw [refused, List.filter_append, filter_accepted]
    rfl

theorem Register.scope_declare (register : Register) (d : Declarator) :
    (register.declare d).scope = register.scope.declare d.declared := by
  cases hi : register.symbols.insert? d.declared.name d.declared.type with
  | none =>
    rw [register.declare_of_none d hi, register.scope.declare_of_none d.declared hi, scope,
      List.filter_append, d.filter_refused]
    rfl
  | some symbols =>
    rw [register.declare_of_some d hi, register.scope.declare_of_some d.declared hi, scope,
      List.filter_append, d.filter_accepted, List.append_nil]
    rfl

theorem Register.scope_declareAll (register : Register) (ds : List Declarator) :
    (register.declareAll ds).scope = register.scope.declareAll (ds.map Declarator.declared) := by
  induction ds generalizing register with
  | nil => rfl
  | cons d ds ih =>
    have hstep := congrArg (Scope.declareAll · (ds.map Declarator.declared))
      (register.scope_declare d)
    exact (ih (register.declare d)).trans hstep

/-! ## The first declaration of each name -/

namespace Declared

/-- The entries for the names that are not taken, each with the type of its first declaration. -/
def firsts (taken : List String) : List Declared → List (String × Ty)
  | [] => []
  | d :: ds =>
    if d.name ∈ taken then firsts taken ds
    else (d.name, d.type) :: firsts (taken ++ [d.name]) ds

/-- The declarations of names that are taken or were declared further ahead. -/
def repeats (taken : List String) : List Declared → List Declared
  | [] => []
  | d :: ds =>
    if d.name ∈ taken then d :: repeats taken ds else repeats (taken ++ [d.name]) ds

theorem names_firsts (taken : List String) (ds : List Declared) :
    (firsts taken ds).map (·.1) = ((ds.map (·.name)).filter (· ∉ taken)).eraseDups := by
  induction ds generalizing taken with
  | nil => rfl
  | cons d ds ih =>
    rw [firsts, List.map_cons, List.filter_cons]
    split
    · rename_i h
      rw [if_neg (by simpa using h), ih]
    · rename_i h
      rw [if_pos (by simpa using h), List.eraseDups_cons, List.map_cons, ih, List.filter_filter]
      refine congrArg (fun names => d.name :: List.eraseDups names) (List.filter_congr ?_)
      intro name _
      rw [Bool.eq_iff_iff]
      simp [and_comm, not_or]

theorem mem_firsts {taken : List String} {ds : List Declared} {name : String} {type : Ty} :
    (name, type) ∈ firsts taken ds ↔
      name ∉ taken ∧ (ds.find? (·.name == name)).map (·.type) = some type := by
  induction ds generalizing taken with
  | nil => simp [firsts]
  | cons d ds ih =>
    rw [firsts, List.find?_cons]
    by_cases he : d.name = name
    · subst he
      split
      · rename_i h
        rw [ih]
        simp [h]
      · rename_i h
        rw [List.mem_cons, ih]
        simp [h, eq_comm]
    · have hne : (d.name == name) = false := by simpa using he
      rw [hne]
      split
      · exact ih
      · rw [List.mem_cons, ih]
        simp [eq_comm, Ne.symm he]

end Declared

namespace Scope

/-- New names get the types of their first declarations, and each other declaration is complained
about. -/
theorem declareAll_eq (scope : Scope) (ds : List Declared) :
    (scope.declareAll ds).symbols.entries =
        scope.symbols.entries ++ Declared.firsts scope.symbols.names ds ∧
      (scope.declareAll ds).redeclarations =
        scope.redeclarations ++
          (Declared.repeats scope.symbols.names ds).map Declared.redeclared := by
  induction ds generalizing scope with
  | nil => exact ⟨(List.append_nil _).symm, (List.append_nil _).symm⟩
  | cons d ds ih =>
    rw [declareAll, List.foldl_cons, ← declareAll, Declared.firsts, Declared.repeats]
    obtain ⟨hentries, hredeclarations⟩ := ih (scope.declare d)
    cases hi : scope.symbols.insert? d.name d.type with
    | none =>
      have h := SymbolTable.insert?_eq_none_iff.1 hi
      rw [scope.declare_of_none d hi] at hentries hredeclarations ⊢
      rw [if_pos h, if_pos h, hentries, hredeclarations, List.map_cons, List.append_assoc]
      exact ⟨rfl, rfl⟩
    | some symbols =>
      have h : d.name ∉ scope.symbols.names := fun hm => by
        rw [SymbolTable.insert?_eq_none_iff.2 hm] at hi
        exact absurd hi (by simp)
      rw [scope.declare_of_some d hi] at hentries hredeclarations ⊢
      rw [if_neg h, if_neg h, hentries, hredeclarations, SymbolTable.names_of_insert? hi,
        SymbolTable.entries_of_insert? hi, List.append_assoc]
      exact ⟨rfl, rfl⟩

theorem declareAll_empty (ds : List Declared) :
    (empty.declareAll ds).symbols.entries = Declared.firsts [] ds ∧
      (empty.declareAll ds).redeclarations =
        (Declared.repeats [] ds).map Declared.redeclared :=
  declareAll_eq empty ds

end Scope
end FrontEnd
