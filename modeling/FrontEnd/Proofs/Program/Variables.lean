import FrontEnd.Proofs.Program.Parts

/-! # The variables of a program

A declaration stands for a node of the parse tree whose second child carries the declared name.

* `Statement.declared`, `Statement.allDeclared`: the names that are declared anywhere in a program.
* `Statement.exists_declare`: they are those of the declarations among its parts.
* `Tree.Carries`: some node of the tree has the value.
* `Statement.carries_of_mem_allDeclared`: the tree carries every name that its program declares.
-/

namespace FrontEnd
set_option autoImplicit false

namespace Statement

mutual

/-- The names of the declarations in a statement and in the bodies inside it. -/
def declared : Statement → List String
  | declare declaration => [declaration.name]
  | assign _ | define _ => []
  | ifThen _ body | loop _ body _ | doWhile body _ => allDeclared body
  | ifElse _ body otherwise => allDeclared body ++ allDeclared otherwise

def allDeclared : List Statement → List String
  | [] => []
  | statement :: rest => statement.declared ++ allDeclared rest

end

theorem mem_allDeclared {name : String} {program : List Statement} :
    name ∈ allDeclared program ↔ ∃ statement ∈ program, name ∈ statement.declared := by
  induction program with
  | nil => simp [allDeclared]
  | cons statement program ih => simp [allDeclared, ih]

/-- The declaration of this name. -/
def Declares (name : String) (statement : Statement) : Prop :=
  ∃ declaration, statement = declare declaration ∧ declaration.name = name

theorem declares_or_of_declared {name : String} (statement : Statement)
    (h : name ∈ statement.declared) :
    statement.Declares name ∨ ∃ inner ∈ statement.bodies, name ∈ inner.declared := by
  cases statement with
  | declare declaration =>
    rw [declared, List.mem_singleton] at h
    exact .inl ⟨declaration, rfl, h.symm⟩
  | assign | define => exact absurd h (by simp [declared])
  | ifThen | loop | doWhile =>
    rw [declared] at h
    exact .inr (mem_allDeclared.1 h)
  | ifElse guard body otherwise =>
    rw [declared, List.mem_append, mem_allDeclared, mem_allDeclared] at h
    refine .inr ?_
    simpa only [bodies, List.mem_append, or_and_right, exists_or] using h

theorem exists_declare {name : String} {program : List Statement} (h : name ∈ allDeclared program) :
    ∃ declaration, declare declaration ∈ allParts program ∧ declaration.name = name := by
  obtain ⟨statement, hs, hn⟩ := mem_allDeclared.1 h
  obtain ⟨_, hp, declaration, rfl, hd⟩ := exists_part (Declares name) (name ∈ declared ·)
    declares_or_of_declared statement hn
  exact ⟨declaration, mem_allParts.2 ⟨statement, hs, hp⟩, hd⟩

end Statement

/-! ## Trees -/

namespace Tree

def Carries (tree : Tree) (value : String) : Prop :=
  ∃ label ∈ tree.labels, label.value = some value

theorem carries_of_value {tree : Tree} {value : String} (h : tree.value = some value) :
    tree.Carries value := by
  cases tree with
  | mk symbol line own children =>
    refine ⟨⟨symbol, own, line⟩, ?_, h⟩
    rw [labels]
    exact List.mem_cons_self

theorem Carries.of_child {tree child : Tree} {value : String} (h : child.Carries value)
    (hm : child ∈ tree.children) : tree.Carries value := by
  obtain ⟨label, hl, hv⟩ := h
  cases tree with
  | mk symbol line own children =>
    refine ⟨label, ?_, hv⟩
    rw [labels]
    exact List.mem_cons_of_mem _ (mem_forestLabels.2 ⟨child, hm, hl⟩)

theorem carries_of_childValue? {tree : Tree} {index : Nat} {value : String}
    (h : tree.childValue? index = some value) : tree.Carries value := by
  obtain ⟨child, hc, hv⟩ := Option.bind_eq_some_iff.1 h
  exact (carries_of_value hv).of_child (List.mem_of_getElem? hc)

theorem Carries.of_mem_nodes {tree node : Tree} {value : String} (h : node.Carries value)
    (hn : node ∈ tree.nodes) : tree.Carries value :=
  Tree.of_mem_nodes (p := fun node => node.Carries value → tree.Carries value)
    (fun _ _ hup hc h => hup (h.of_child hc)) id hn h

end Tree

/-! ## Reading trees -/

variable {tree : Tree} {declaration : Declaration}

theorem Declaration.carries_name (h : Declaration.ofTree? tree = some declaration) :
    tree.Carries declaration.name := by
  obtain ⟨typeName, -, h⟩ := Option.bind_eq_some_iff.1 h
  obtain ⟨name, hname, h⟩ := Option.bind_eq_some_iff.1 h
  obtain rfl := Option.some.inj h
  exact Tree.carries_of_childValue? hname

namespace Statement

theorem carries_of_ofTree (h : declare declaration ∈ ofTree tree) :
    tree.Carries declaration.name := by
  cases ofNode_of_mem_ofTree h with
  | declare hn hd => exact (Declaration.carries_name hd).of_mem_nodes hn

/-- Whatever a program declares, the tree it was read from carries the name. -/
theorem carries_of_mem_allDeclared (tree : Tree) {name : String}
    (h : name ∈ allDeclared (listOfTree tree)) : tree.Carries name := by
  obtain ⟨declaration, hd, rfl⟩ := exists_declare h
  obtain ⟨node, hn, hp⟩ := exists_node tree hd
  exact (carries_of_ofTree hp).of_mem_nodes hn

end Statement
end FrontEnd
