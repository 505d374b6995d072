import FrontEnd.Proofs.Lowering.Declarations
import FrontEnd.Proofs.Parse.Shape

/-! # The declarations in a parse tree

In a tree of the normalized built-in grammar, whatever recovery has left of it, the nodes of
declarations stand in preorder in the order in which their statements are lowered.

* `Tree.declarator?`: the declaration of a node; `Tree.declarators`: those of all nodes in preorder.
* `Tree.declared?`, `Tree.declarations`: the names and types that they declare.
* `Tree.declarators_eq_nil`: below most symbols there are no declarations.
* `Tree.DeclaresAll`, `Tree.declaresAll_of_followsRules`: the statements of a tree declare what its
  nodes do.
-/

namespace FrontEnd
set_option autoImplicit false

open Grammar (expanded)
open Statement (allDeclarators)

namespace Tree

/-! ## Nodes -/

/-- The value of the child at `index`, if this is a leaf for `symbol` that was matched. -/
def matched? (tree : Tree) (index : Nat) (symbol : Symbol) : Option String :=
  (tree.child? index).bind fun leaf => if leaf.hasSymbol symbol then leaf.value else none

/-- What a variable declaration with a type and a name, or a struct with a name, declares. -/
def declared? (tree : Tree) : Option Declared :=
  match tree.symbol with
  | "VariableDeclaration" => do
    let typeName ← tree.matched? 0 "TYPE"
    let name ← tree.matched? 1 "ID"
    let suffixes := (Declaration.ofInitAt tree.children 2).1
    return ⟨tree.line, name, .arrayOf (.primitive typeName) (Suffix.sizes suffixes)⟩
  | "StructDeclaration" => do
    let name ← tree.matched? 1 "ID"
    let fields := StructDefinition.fieldsAt tree.children 3
    return ⟨tree.line, name, .record (StructDefinition.members name [] fields).1⟩
  | _ => none

/-- The declarations in a tree, in preorder. -/
def declarations (tree : Tree) : List Declared := tree.nodes.filterMap declared?

/-- The declaration that a node is read as, if it has a name and, for a variable, a type. -/
def declarator? (tree : Tree) : Option Declarator :=
  match tree.symbol with
  | "VariableDeclaration" => do
    let typeName ← tree.matched? 0 "TYPE"
    let name ← tree.matched? 1 "ID"
    let init := Declaration.ofInitAt tree.children 2
    return .declare ⟨tree.line, typeName, name, init.1, init.2⟩
  | "StructDeclaration" => do
    let name ← tree.matched? 1 "ID"
    return .define ⟨tree.line, name, StructDefinition.fieldsAt tree.children 3⟩
  | _ => none

theorem declared?_eq (tree : Tree) : tree.declared? = tree.declarator?.map Declarator.declared := by
  unfold declared? declarator?
  split
  · cases tree.matched? 0 "TYPE" <;> cases tree.matched? 1 "ID" <;> rfl
  · cases tree.matched? 1 "ID" <;> rfl
  · rfl

def declarators (tree : Tree) : List Declarator := tree.nodes.filterMap declarator?

theorem declarations_eq_map (tree : Tree) :
    tree.declarations = tree.declarators.map Declarator.declared := by
  unfold declarations declarators
  rw [List.map_filterMap]
  exact congrArg (List.filterMap · tree.nodes) (funext declared?_eq)

theorem declarators_eq (tree : Tree) :
    tree.declarators = tree.declarator?.toList ++ tree.children.flatMap declarators := by
  unfold declarators
  rw [nodes_eq, forestNodes_eq, List.filterMap_cons, List.filterMap_flatMap]
  cases tree.declarator? <;> rfl

theorem declarator?_eq_none {tree : Tree}
    (h : tree.symbol ∉ ["VariableDeclaration", "StructDeclaration"]) : tree.declarator? = none := by
  unfold declarator?
  split
  · rename_i hs
    exact absurd (hs ▸ List.mem_cons_self) h
  · rename_i hs
    exact absurd (hs ▸ List.mem_cons_of_mem _ List.mem_cons_self) h
  · rfl

/-! ## Symbols without declarators -/

/-- The symbols that declare something or have such symbols below them. -/
def declaringSymbols : List Symbol :=
  ["Program", "VariableDeclaration", "StructDeclaration", "IfStatement", "ElsePart",
   "WhileStatement", "DoWhileStatement", "ForStatement", "ForInit"]

theorem declaringSymbols_closed : ∀ rule ∈ expanded.rules, rule.left ∉ declaringSymbols →
    ∀ symbol ∈ rule.production, symbol ∉ declaringSymbols := by
  decide

theorem declarators_eq_nil (tree : Tree) (h : tree.FollowsRules expanded)
    (hs : tree.symbol ∉ declaringSymbols) : tree.declarators = [] := by
  have hchildren : ∀ child ∈ tree.children, child.symbol ∉ declaringSymbols := by
    intro child hc
    rcases (followsRules_iff.1 h).1 with hnil | hp
    · rw [hnil] at hc
      exact absurd hc List.not_mem_nil
    · obtain ⟨rule, hr, hl, hrule⟩ := Grammar.exists_rule hp
      refine declaringSymbols_closed rule hr (hl ▸ hs) child.symbol ?_
      rw [hrule]
      exact List.mem_map_of_mem hc
  have hnone : tree.declarator? = none := declarator?_eq_none fun hm => hs (by
    simp only [List.mem_cons, List.not_mem_nil, or_false] at hm
    rcases hm with hm | hm <;> rw [hm] <;> decide)
  rw [declarators_eq, hnone, Option.toList_none, List.nil_append, List.flatMap_eq_nil_iff]
  intro child hc
  exact declarators_eq_nil child (h.child hc) (hchildren child hc)
termination_by sizeOf tree
decreasing_by exact sizeOf_lt_of_mem hc

theorem flatMap_declarators {children : List Tree}
    (hd : ∀ child ∈ children, child.FollowsRules expanded) :
    children.flatMap declarators =
      (children.filter fun child => child.symbol ∈ declaringSymbols).flatMap declarators := by
  induction children with
  | nil => rfl
  | cons child children ih =>
    rw [List.forall_mem_cons] at hd
    rw [List.flatMap_cons, ih hd.2, List.filter_cons]
    split
    · rfl
    · rename_i hs
      rw [declarators_eq_nil child hd.1 (by simpa using hs)]
      rfl

/-! ## Statements -/

/-- The statements that a tree is read as declare what its nodes declare. -/
structure DeclaresAll (tree : Tree) : Prop where
  program : tree.symbol = "Program" →
    allDeclarators (Statement.listOfTree tree) = tree.declarators
  part : tree.symbol ∉ ["Program", "ElsePart", "ForInit"] →
    allDeclarators (Statement.ofTree tree) = tree.declarators
  other : tree.symbol = "ElsePart" →
    allDeclarators ((Statement.elseAt? [tree] 0).getD []) = tree.declarators
  start : tree.symbol = "ForInit" →
    allDeclarators ((tree.child? 0).bind Statement.ofVariable?).toList = tree.declarators

theorem declarators_parts {parts : List Tree} (ih : ∀ part ∈ parts, part.DeclaresAll)
    (hlast : parts.Pairwise fun part _ => part.symbol ≠ "Program")
    (hparts : ∀ part ∈ parts, part.symbol ∉ ["ElsePart", "ForInit"]) :
    allDeclarators (Statement.listOfParts parts) ++
        allDeclarators (Statement.listOfLast parts) = parts.flatMap declarators := by
  induction parts with
  | nil => rfl
  | cons part rest ihrest =>
    rw [List.forall_mem_cons] at ih hparts
    obtain ⟨hne, hlast⟩ := List.pairwise_cons.1 hlast
    by_cases hs : part.symbol = "Program"
    · obtain rfl : rest = [] := List.eq_nil_iff_forall_not_mem.2 fun other ho => hne other ho hs
      simp [Statement.listOfParts, Statement.listOfLast, hasSymbol, hs, ih.1.program hs,
        allDeclarators]
    · have hpart := ih.1.part (by
        rw [List.mem_cons, not_or]
        exact ⟨hs, hparts.1⟩)
      have hbeq : part.hasSymbol "Program" = false := by simpa [hasSymbol] using hs
      rw [Statement.listOfParts, Statement.listOfLast, hbeq, Bool.false_and, if_neg (by simp),
        if_neg (by simp), Statement.allDeclarators_append, hpart, List.append_assoc,
        ihrest ih.2 hlast hparts.2, List.flatMap_cons]

section
variable {children : List Tree} (hd : ∀ child ∈ children, child.FollowsRules expanded)
  (line : Nat) (value : Option String)
include hd

theorem declarators_node {symbol : Symbol}
    (hs : symbol ∉ ["VariableDeclaration", "StructDeclaration"]) :
    declarators ⟨symbol, line, value, children⟩ =
      (children.filter fun child => child.symbol ∈ declaringSymbols).flatMap declarators := by
  rw [declarators_eq, declarator?_eq_none hs, flatMap_declarators hd]
  rfl

theorem declarators_variable (hp : children = [] ∨
    children.map (·.symbol) ∈ expanded.productionsOf "VariableDeclaration") :
    allDeclarators (Statement.ofVariable? ⟨"VariableDeclaration", line, value, children⟩).toList =
      declarators ⟨"VariableDeclaration", line, value, children⟩ := by
  have hcases : children = [] ∨ children.map (·.symbol) ∈ [["TYPE", "ID", "Init"], ["ID", "Init"]] :=
    hp
  rw [declarators_eq, flatMap_declarators hd]
  simp only [List.mem_cons, List.not_mem_nil, or_false, List.map_eq_cons_iff,
    List.map_eq_nil_iff] at hcases
  obtain rfl | ⟨type, _, rfl, ht, name, _, rfl, hn, init, _, rfl, hi, rfl⟩ |
    ⟨name, _, rfl, hn, init, _, rfl, hi, rfl⟩ := hcases
  · rfl
  · have hquiet : [type, name, init].filter (fun child => child.symbol ∈ declaringSymbols) = [] := by
      simp [ht, hn, hi, declaringSymbols]
    rw [hquiet]
    cases htype : type.value <;> cases hname : name.value <;>
      simp [Statement.ofVariable?, startsWith, child?, hasSymbol, ht, hn, Declaration.ofTree?,
        childValue?, htype, hname, declarator?, matched?, allDeclarators, Statement.declarators]
  · have hquiet : [name, init].filter (fun child => child.symbol ∈ declaringSymbols) = [] := by
      simp [hn, hi, declaringSymbols]
    rw [hquiet]
    cases hname : name.value <;>
      simp [Statement.ofVariable?, startsWith, child?, hasSymbol, hn, Assignment.ofTree?,
        childValue?, hname, declarator?, matched?, allDeclarators, Statement.declarators]

theorem declarators_struct (hp : children = [] ∨
    children.map (·.symbol) ∈ expanded.productionsOf "StructDeclaration") :
    allDeclarators (Statement.ofTree ⟨"StructDeclaration", line, value, children⟩) =
      declarators ⟨"StructDeclaration", line, value, children⟩ := by
  have hcases : children = [] ∨
      children.map (·.symbol) ∈ [["STRUCT", "ID", "LC", "StructBody", "RC"]] := hp
  rw [declarators_eq, flatMap_declarators hd]
  simp only [List.mem_cons, List.not_mem_nil, or_false, List.map_eq_cons_iff,
    List.map_eq_nil_iff] at hcases
  obtain rfl | ⟨key, _, rfl, hkey, name, _, rfl, hn, left, _, rfl, hl, body, _, rfl, hb, right, _,
    rfl, hr, rfl⟩ := hcases
  · rfl
  · have hquiet : [key, name, left, body, right].filter
        (fun child => child.symbol ∈ declaringSymbols) = [] := by
      simp [hkey, hn, hl, hb, hr, declaringSymbols]
    rw [hquiet]
    cases hname : name.value <;>
      simp [Statement.ofTree, StructDefinition.ofTree?, child?, hasSymbol, hn, childValue?, hname,
        declarator?, matched?, allDeclarators, Statement.declarators]

section
variable (ih : ∀ child ∈ children, child.DeclaresAll)
include ih

theorem declarators_program (hp : children = [] ∨
    children.map (·.symbol) ∈ expanded.productionsOf "Program") :
    allDeclarators (Statement.listOfTree ⟨"Program", line, value, children⟩) =
      declarators ⟨"Program", line, value, children⟩ := by
  have hparts : ∀ production ∈ [] :: expanded.productionsOf "Program",
      (production.Pairwise fun symbol _ => symbol ≠ "Program") ∧
        ∀ symbol ∈ production, symbol ∉ ["ElsePart", "ForInit"] := by
    decide
  obtain ⟨hlast, hnames⟩ := hparts (children.map (·.symbol)) (by
    rcases hp with rfl | hp
    · exact List.mem_cons_self
    · exact List.mem_cons_of_mem _ hp)
  rw [declarators_eq, declarator?_eq_none (by simp), Statement.listOfTree,
    Statement.allDeclarators_append]
  exact declarators_parts ih (List.pairwise_map.1 hlast) fun part hm =>
    hnames part.symbol (List.mem_map_of_mem hm)

theorem declarators_other (hp : children = [] ∨
    children.map (·.symbol) ∈ expanded.productionsOf "ElsePart") :
    allDeclarators ((Statement.elseAt? [⟨"ElsePart", line, value, children⟩] 0).getD []) =
      declarators ⟨"ElsePart", line, value, children⟩ := by
  have hcases : children = [] ∨ children.map (·.symbol) ∈ [["ELSE", "LC", "Program", "RC"], []] := hp
  rw [declarators_node hd line value (by simp)]
  simp only [List.mem_cons, List.not_mem_nil, or_false, List.map_eq_cons_iff,
    List.map_eq_nil_iff] at hcases
  obtain rfl | ⟨key, _, rfl, hkey, left, _, rfl, hl, body, _, rfl, hb, right, _, rfl, hr, rfl⟩ |
    rfl := hcases
  · rfl
  · have hbody := (ih body (by simp)).program hb
    simpa [Statement.elseAt?, Statement.bodyAt, hkey, hl, hb, hr, declaringSymbols] using hbody
  · rfl

theorem declarators_if (hp : children = [] ∨
    children.map (·.symbol) ∈ expanded.productionsOf "IfStatement") :
    allDeclarators (Statement.ofTree ⟨"IfStatement", line, value, children⟩) =
      declarators ⟨"IfStatement", line, value, children⟩ := by
  have hcases : children = [] ∨ children.map (·.symbol) ∈
    [["IF", "LP", "Expression", "RP", "LC", "Program", "RC", "ElsePart"]] := hp
  rw [declarators_node hd line value (by simp)]
  simp only [List.mem_cons, List.not_mem_nil, or_false, List.map_eq_cons_iff,
    List.map_eq_nil_iff] at hcases
  obtain rfl | ⟨key, _, rfl, hkey, left, _, rfl, hl, test, _, rfl, ht, right, _, rfl, hr,
    opening, _, rfl, ho, body, _, rfl, hb, closing, _, rfl, hc, ⟨_, l, v, part⟩, _, rfl, rfl,
    rfl⟩ := hcases
  · rfl
  · have hbody := (ih body (by simp)).program hb
    have hother := (ih ⟨"ElsePart", l, v, part⟩ (by simp)).other rfl
    simp only [Statement.elseAt?] at hother
    have hkept : [key, left, test, right, opening, body, closing, ⟨"ElsePart", l, v, part⟩].filter
        (fun child => child.symbol ∈ declaringSymbols) = [body, ⟨"ElsePart", l, v, part⟩] := by
      simp [hkey, hl, ht, hr, ho, hb, hc, declaringSymbols]
    rw [hkept, List.flatMap_cons, List.flatMap_singleton, ← hbody, ← hother]
    split <;>
      simp [Statement.ofTree, child?, Statement.elseAt?, Statement.bodyAt, allDeclarators,
        Statement.declarators, *]

theorem declarators_while (hp : children = [] ∨
    children.map (·.symbol) ∈ expanded.productionsOf "WhileStatement") :
    allDeclarators (Statement.ofTree ⟨"WhileStatement", line, value, children⟩) =
      declarators ⟨"WhileStatement", line, value, children⟩ := by
  have hcases : children = [] ∨ children.map (·.symbol) ∈
    [["WHILE", "LP", "Expression", "RP", "LC", "Program", "RC"]] := hp
  rw [declarators_node hd line value (by simp)]
  simp only [List.mem_cons, List.not_mem_nil, or_false, List.map_eq_cons_iff,
    List.map_eq_nil_iff] at hcases
  obtain rfl | ⟨key, _, rfl, hkey, left, _, rfl, hl, test, _, rfl, ht, right, _, rfl, hr,
    opening, _, rfl, ho, body, _, rfl, hb, closing, _, rfl, hc, rfl⟩ := hcases
  · rfl
  · have hbody := (ih body (by simp)).program hb
    have hkept : [key, left, test, right, opening, body, closing].filter
        (fun child => child.symbol ∈ declaringSymbols) = [body] := by
      simp [hkey, hl, ht, hr, ho, hb, hc, declaringSymbols]
    rw [hkept, List.flatMap_singleton, ← hbody]
    simp [Statement.ofTree, child?, Statement.bodyAt, allDeclarators, Statement.declarators]

theorem declarators_doWhile (hp : children = [] ∨
    children.map (·.symbol) ∈ expanded.productionsOf "DoWhileStatement") :
    allDeclarators (Statement.ofTree ⟨"DoWhileStatement", line, value, children⟩) =
      declarators ⟨"DoWhileStatement", line, value, children⟩ := by
  have hcases : children = [] ∨ children.map (·.symbol) ∈
    [["DO", "LC", "Program", "RC", "WHILE", "LP", "Expression", "RP"]] := hp
  rw [declarators_node hd line value (by simp)]
  simp only [List.mem_cons, List.not_mem_nil, or_false, List.map_eq_cons_iff,
    List.map_eq_nil_iff] at hcases
  obtain rfl | ⟨key, _, rfl, hkey, opening, _, rfl, ho, body, _, rfl, hb, closing, _, rfl, hc,
    key', _, rfl, hkey', left, _, rfl, hl, test, _, rfl, ht, right, _, rfl, hr, rfl⟩ := hcases
  · rfl
  · have hbody := (ih body (by simp)).program hb
    have hkept : [key, opening, body, closing, key', left, test, right].filter
        (fun child => child.symbol ∈ declaringSymbols) = [body] := by
      simp [hkey, hl, ht, hr, ho, hb, hc, hkey', declaringSymbols]
    rw [hkept, List.flatMap_singleton, ← hbody]
    simp [Statement.ofTree, child?, Statement.bodyAt, allDeclarators, Statement.declarators]

theorem declarators_for (hp : children = [] ∨
    children.map (·.symbol) ∈ expanded.productionsOf "ForStatement") :
    allDeclarators (Statement.ofTree ⟨"ForStatement", line, value, children⟩) =
      declarators ⟨"ForStatement", line, value, children⟩ := by
  have hcases : children = [] ∨ children.map (·.symbol) ∈
    [["FOR", "LP", "ForInit", "SEMI", "Expression", "SEMI", "ForStep", "RP", "LC", "Program",
      "RC"]] := hp
  rw [declarators_node hd line value (by simp)]
  simp only [List.mem_cons, List.not_mem_nil, or_false, List.map_eq_cons_iff,
    List.map_eq_nil_iff] at hcases
  obtain rfl | ⟨key, _, rfl, hkey, left, _, rfl, hl, start, _, rfl, hs, semi, _, rfl, hsemi,
    test, _, rfl, ht, semi', _, rfl, hsemi', step, _, rfl, hstep, right, _, rfl, hr,
    opening, _, rfl, ho, body, _, rfl, hb, closing, _, rfl, hc, rfl⟩ := hcases
  · rfl
  · have hbody := (ih body (by simp)).program hb
    have hstart := (ih start (by simp)).start hs
    have hkept : [key, left, start, semi, test, semi', step, right, opening, body, closing].filter
        (fun child => child.symbol ∈ declaringSymbols) = [start, body] := by
      simp [hkey, hl, hs, hsemi, ht, hsemi', hstep, hr, ho, hb, hc, declaringSymbols]
    rw [hkept, List.flatMap_cons, List.flatMap_singleton, ← hbody, ← hstart]
    simp [Statement.ofTree, Statement.initialOf, child?, Statement.bodyAt, allDeclarators,
      Statement.declarators, Statement.allDeclarators_append]

end

theorem declarators_start (hp : children = [] ∨
    children.map (·.symbol) ∈ expanded.productionsOf "ForInit") :
    allDeclarators ((child? ⟨"ForInit", line, value, children⟩ 0).bind
        Statement.ofVariable?).toList =
      declarators ⟨"ForInit", line, value, children⟩ := by
  have hcases : children = [] ∨ children.map (·.symbol) ∈ [["VariableDeclaration"], []] := hp
  rw [declarators_node hd line value (by simp)]
  simp only [List.mem_cons, List.not_mem_nil, or_false, List.map_eq_cons_iff,
    List.map_eq_nil_iff] at hcases
  obtain rfl | ⟨⟨_, l, v, below⟩, _, rfl, rfl, rfl⟩ | rfl := hcases
  · rfl
  · obtain ⟨hrule, hbelow⟩ := followsRules_iff.1
      (hd ⟨"VariableDeclaration", l, v, below⟩ List.mem_cons_self)
    have hvariable := declarators_variable hbelow l v hrule
    simpa [child?, declaringSymbols] using hvariable
  · rfl

end

/-! ## Trees -/

/-- The statements read off a tree that follows the rules declare what is declared in the tree. -/
theorem declaresAll_of_followsRules (tree : Tree) (h : tree.FollowsRules expanded) :
    tree.DeclaresAll := by
  have ih : ∀ child ∈ tree.children, child.DeclaresAll := fun child hc =>
    declaresAll_of_followsRules child (h.child hc)
  obtain ⟨hrule, hd⟩ := followsRules_iff.1 h
  obtain ⟨symbol, line, value, children⟩ := tree
  refine ⟨?_, fun hs => ?_, ?_, ?_⟩
  · rintro rfl
    exact declarators_program hd line value ih hrule
  · by_cases hm : symbol ∈ declaringSymbols
    · have hsymbols : ∀ name ∈ declaringSymbols, name ∉ ["Program", "ElsePart", "ForInit"] →
          name ∈ ["VariableDeclaration", "StructDeclaration", "IfStatement", "WhileStatement",
            "DoWhileStatement", "ForStatement"] := by
        decide
      have hcases := hsymbols symbol hm hs
      simp only [List.mem_cons, List.not_mem_nil, or_false] at hcases
      rcases hcases with rfl | rfl | rfl | rfl | rfl | rfl
      · exact declarators_variable hd line value hrule
      · exact declarators_struct hd line value hrule
      · exact declarators_if hd line value ih hrule
      · exact declarators_while hd line value ih hrule
      · exact declarators_doWhile hd line value ih hrule
      · exact declarators_for hd line value ih hrule
    · rw [declarators_eq_nil _ h hm]
      unfold Statement.ofTree
      split
      case h_7 => rfl
      all_goals exact absurd (by decide) hm
  · rintro rfl
    exact declarators_other hd line value ih hrule
  · rintro rfl
    exact declarators_start hd line value hrule
termination_by sizeOf tree
decreasing_by exact sizeOf_lt_of_mem hc

end Tree
end FrontEnd
