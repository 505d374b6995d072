import FrontEnd.Proofs.Lowering.Declarations

/-! # The sizes of a declared array

The first declaration of a name determines its type, and the sizes of arrays are complained about
there and nowhere else.

* `SemanticError.isSizeOf`: the complaints about the sizes of one array.
* `Register.declareAll_first`: the entry and the complaints that a first declaration leaves behind.
-/

namespace FrontEnd
set_option autoImplicit false

/-! ## Complaints about sizes -/

/-- Whether a complaint is about a size of the array with this name. -/
def SemanticError.isSizeOf (name : String) (error : SemanticError) : Bool :=
  match error.fault with
  | .invalidSize _ array => array == name
  | _ => false

namespace Declarator
variable {name : String}

theorem filter_isSizeOf_suffixes (suffixes : List Suffix) :
    (Suffix.errors name suffixes).filter (·.isSizeOf name) = Suffix.errors name suffixes := by
  refine List.filter_eq_self.2 fun error h => ?_
  obtain ⟨suffix, -, rfl⟩ := List.mem_map.1 h
  exact beq_self_eq_true name

theorem filter_isSizeOf_accepted (d : Declarator) (h : d.declared.name ≠ name) :
    d.accepted.filter (·.isSizeOf name) = [] := by
  refine List.filter_eq_nil_iff.2 fun error he => ?_
  cases d with
  | declare declaration =>
    obtain ⟨suffix, -, rfl⟩ := List.mem_map.1 he
    simpa [SemanticError.isSizeOf, declared] using h
  | define definition =>
    obtain ⟨line, field, rfl⟩ := StructDefinition.exists_duplicate he
    exact Bool.false_ne_true

theorem filter_isSizeOf_refused (d : Declarator) :
    d.refused.filter (·.isSizeOf name) = [] := by
  refine List.filter_eq_nil_iff.2 fun error he => ?_
  cases d with
  | declare declaration =>
    obtain rfl := List.mem_singleton.1 he
    exact Bool.false_ne_true
  | define definition =>
    rcases List.mem_append.1 he with he | he
    · obtain ⟨line, field, rfl⟩ := StructDefinition.exists_duplicate he
      exact Bool.false_ne_true
    · obtain rfl := List.mem_singleton.1 he
      exact Bool.false_ne_true

end Declarator

/-! ## First declarations -/

namespace Register
variable (register : Register) {name : String}

/-- The complaints about the sizes of the array with this name. -/
def sizeErrors (name : String) : List SemanticError :=
  register.complaints.filter (·.isSizeOf name)

theorem sizeErrors_empty : empty.sizeErrors name = [] := rfl

theorem sizeErrors_register (s : Lowering) :
    s.register.sizeErrors name = s.errors.filter (·.isSizeOf name) := by
  unfold sizeErrors Lowering.register
  rw [List.filter_filter]
  refine List.filter_congr fun error _ => ?_
  obtain ⟨line, fault⟩ := error
  cases fault <;> simp [SemanticError.isSizeOf, SemanticError.isDeclarative]

theorem mem_names_declare (d : Declarator) :
    name ∈ (register.declare d).symbols.names ↔
      name ∈ register.symbols.names ∨ name = d.declared.name := by
  cases hi : register.symbols.insert? d.declared.name d.declared.type with
  | none =>
    have htaken := SymbolTable.insert?_eq_none_iff.1 hi
    rw [register.declare_of_none d hi]
    exact ⟨Or.inl, Or.rec id fun he => he ▸ htaken⟩
  | some symbols =>
    rw [register.declare_of_some d hi, SymbolTable.names_of_insert? hi, List.mem_append,
      List.mem_singleton]

theorem mem_names_declareAll (ds : List Declarator) :
    name ∈ (register.declareAll ds).symbols.names ↔
      name ∈ register.symbols.names ∨ ∃ d ∈ ds, name = d.declared.name := by
  induction ds generalizing register with
  | nil => simp [declareAll]
  | cons d ds ih =>
    rw [show register.declareAll (d :: ds) = (register.declare d).declareAll ds from rfl, ih,
      mem_names_declare, or_assoc]
    simp

/-- No declaration takes an entry away. -/
theorem mem_entries_declareAll {entry : String × Ty} (h : entry ∈ register.symbols.entries)
    (ds : List Declarator) : entry ∈ (register.declareAll ds).symbols.entries := by
  induction ds generalizing register with
  | nil => exact h
  | cons d ds ih =>
    refine ih (register.declare d) ?_
    cases hi : register.symbols.insert? d.declared.name d.declared.type with
    | none => rwa [register.declare_of_none d hi]
    | some symbols =>
      rw [register.declare_of_some d hi, SymbolTable.entries_of_insert? hi]
      exact List.mem_append_left _ h

/-- Other names, and names that are taken, bring no complaints about these sizes. -/
theorem sizeErrors_declare (d : Declarator)
    (h : name ∈ register.symbols.names ∨ d.declared.name ≠ name) :
    (register.declare d).sizeErrors name = register.sizeErrors name := by
  unfold sizeErrors
  cases hi : register.symbols.insert? d.declared.name d.declared.type with
  | none =>
    rw [register.declare_of_none d hi, List.filter_append, d.filter_isSizeOf_refused,
      List.append_nil]
  | some symbols =>
    have hne : d.declared.name ≠ name := by
      rcases h with h | h
      · rintro rfl
        rw [SymbolTable.insert?_eq_none_iff.2 h] at hi
        exact absurd hi (by simp)
      · exact h
    rw [register.declare_of_some d hi, List.filter_append, d.filter_isSizeOf_accepted hne,
      List.append_nil]

theorem sizeErrors_declareAll (ds : List Declarator)
    (h : name ∈ register.symbols.names ∨ ∀ d ∈ ds, d.declared.name ≠ name) :
    (register.declareAll ds).sizeErrors name = register.sizeErrors name := by
  induction ds generalizing register with
  | nil => rfl
  | cons d ds ih =>
    rw [List.forall_mem_cons] at h
    refine (ih (register.declare d) ?_).trans
      (register.sizeErrors_declare d (h.imp_right And.left))
    exact h.imp (fun hm => (register.mem_names_declare d).2 (Or.inl hm)) And.right

/-- The first declaration of a name determines its type and the complaints about its sizes. -/
theorem declareAll_first (before after : List Declarator) (declaration : Declaration)
    (hfree : declaration.name ∉ register.symbols.names)
    (hfirst : ∀ d ∈ before, d.declared.name ≠ declaration.name) :
    (declaration.name, declaration.type) ∈
        (register.declareAll (before ++ .declare declaration :: after)).symbols.entries ∧
      (register.declareAll (before ++ .declare declaration :: after)).sizeErrors
          declaration.name =
        register.sizeErrors declaration.name ++
          Suffix.errors declaration.name declaration.suffixes := by
  have hfree' : declaration.name ∉ (register.declareAll before).symbols.names := by
    rw [mem_names_declareAll]
    rintro (h | ⟨d, hd, he⟩)
    · exact hfree h
    · exact hfirst d hd he.symm
  rw [declareAll_append, ← register.sizeErrors_declareAll before (Or.inr hfirst)]
  generalize register.declareAll before = register at hfree'
  obtain ⟨symbols, hi⟩ : ∃ symbols,
      register.symbols.insert? declaration.name declaration.type = some symbols :=
    Option.ne_none_iff_exists'.1 (mt SymbolTable.insert?_eq_none_iff.1 hfree')
  have hstep := register.declare_of_some (.declare declaration) hi
  have hentry : (declaration.name, declaration.type) ∈
      (register.declare (.declare declaration)).symbols.entries := by
    rw [hstep, SymbolTable.entries_of_insert? hi]
    exact List.mem_append_right _ List.mem_cons_self
  refine ⟨mem_entries_declareAll _ hentry after, ?_⟩
  refine (sizeErrors_declareAll _ after (Or.inl (List.mem_map_of_mem hentry))).trans ?_
  rw [hstep]
  unfold sizeErrors
  rw [List.filter_append]
  exact congrArg _ (Declarator.filter_isSizeOf_suffixes declaration.suffixes)

end Register
end FrontEnd
