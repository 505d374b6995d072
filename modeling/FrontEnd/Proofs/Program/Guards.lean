import FrontEnd.Proofs.Program.OfDerivation
import FrontEnd.Proofs.Program.Parts

/-! # The guards of derivations

In a derivation with proper leaves the condition of every `if` and of every loop is a whole
expression; a guard that lacks a part comes from recovery only.

* `Statement.HasWholeGuard`: nothing is lost of the statement's own guard.
* `Tree.IsRegular.hasWholeGuard`: so it is with all statements of a derivation.
-/

namespace FrontEnd
set_option autoImplicit false

open Grammar (expanded)

/-- The statement's own guard, if it has one, tests a whole expression. -/
def Statement.HasWholeGuard : Statement → Prop
  | ifThen guard _ | ifElse guard _ _ | loop guard _ _ | doWhile _ (some guard) =>
    ∃ e, guard.IsTestOf e
  | declare _ | assign _ | define _ | doWhile _ none => True

namespace Tree

theorem IsDerivation.isNonterminal {g : Grammar} {tree child : Tree} (h : tree.IsDerivation g)
    (hc : child ∈ tree.children) : g.isNonterminal tree.symbol = true := by
  cases h with
  | leaf => exact absurd hc List.not_mem_nil
  | node _ _ hr _ _ => exact Grammar.isNonterminal_left hr

/-- The statements with conditions, and the places of these among the children. -/
def conditionPlaces : List (Symbol × Nat) :=
  [("IfStatement", 2), ("WhileStatement", 2), ("DoWhileStatement", 6), ("ForStatement", 4)]

theorem productionsOf_conditionPlaces : ∀ place ∈ conditionPlaces,
    ∀ production ∈ expanded.productionsOf place.1, production[place.2]? = some "Expression" := by
  decide

namespace IsRegular

theorem of_mem_children {tree child : Tree} (h : tree.IsRegular) (hc : child ∈ tree.children) :
    child.IsRegular :=
  h.child (h.derivation.isNonterminal hc) hc

theorem of_mem_nodes {tree node : Tree} (h : tree.IsRegular) (hn : node ∈ tree.nodes) :
    node.IsRegular :=
  Tree.of_mem_nodes (fun _ _ => of_mem_children) h hn

variable {tree child : Tree}

/-- The symbol of a child, where the rules leave no choice. -/
theorem symbol_of_child? (h : tree.IsRegular) {index : Nat} (hc : tree.child? index = some child)
    {symbol : Symbol}
    (hp : ∀ production ∈ expanded.productionsOf tree.symbol, production[index]? = some symbol) :
    child.symbol = symbol := by
  have hm := h.derivation.production_mem (h.derivation.isNonterminal (List.mem_of_getElem? hc))
  have hs := hp _ hm
  rw [List.getElem?_map, show tree.children[index]? = some child from hc] at hs
  exact Option.some.inj hs

theorem exists_isTestOf (h : tree.IsRegular) {index : Nat} (hc : tree.child? index = some child)
    (hp : (tree.symbol, index) ∈ conditionPlaces) :
    ∃ e, (Guard.ofTree child).IsTestOf e := by
  obtain ⟨e, -, hmean⟩ := exists_reads (h.of_mem_children (List.mem_of_getElem? hc))
    (h.symbol_of_child? hc (productionsOf_conditionPlaces _ hp))
  exact ⟨e, hmean.1.isTestOf⟩

theorem hasWholeGuard_of_ofTree (h : tree.IsRegular) {statement : Statement}
    (hs : statement ∈ Statement.ofTree tree) : statement.HasWholeGuard := by
  cases Statement.ofNode_of_mem_ofTree hs with
  | declare | assign | define => trivial
  | ifThen hsymbol hc | ifElse hsymbol hc | whileLoop hsymbol hc | forLoop hsymbol hc =>
    exact h.exists_isTestOf hc (by simp [conditionPlaces, hsymbol])
  | doWhile hsymbol =>
    cases hc : tree.child? 6 with
    | none => trivial
    | some condition => exact h.exists_isTestOf hc (by simp [conditionPlaces, hsymbol])

/-- All guards in the program of a derivation are whole. -/
theorem hasWholeGuard (h : tree.IsRegular) {part : Statement}
    (hp : part ∈ Statement.allParts (Statement.listOfTree tree)) : part.HasWholeGuard := by
  obtain ⟨node, hn, hp⟩ := Statement.exists_node tree hp
  exact (h.of_mem_nodes hn).hasWholeGuard_of_ofTree hp

end IsRegular
end Tree
end FrontEnd
