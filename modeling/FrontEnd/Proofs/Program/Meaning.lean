import FrontEnd.Program.OfTree
import FrontEnd.Proofs.Program.Reading

/-! # What trees are read as

One lemma for each shape that the rules of the normalized grammar give a node: what the node is read
as, when its children are read in their ways.

* `Guard.IsTestOf`: a guard and the whole expression that it tests.
* `Expr.Means`, `Expr.TailMeans`: expressions, and what comes behind an operand.
* `Declaration.InitMeans`, `Statement.VariableMeans`: the parts of declarations and assignments.
* `Statement.PartMeans`, `Statement.ProgramMeans`: statements and programs.
-/

namespace FrontEnd
set_option autoImplicit false

/-! ## Expressions -/

/-- The guard tests this expression, and nothing of it was lost. -/
def Guard.IsTestOf (e : Expr) : Guard → Prop
  | compare op line left right =>
    ∃ a b, left = some a ∧ right = some b ∧ e = .binary op line a b
  | truth value => value = some e

theorem Guard.IsTestOf.condition {e : Expr} {guard : Guard} (h : guard.IsTestOf e) :
    guard.condition = e := by
  cases guard with
  | compare op line left right =>
    obtain ⟨a, b, rfl, rfl, rfl⟩ := h
    rfl
  | truth value =>
    obtain rfl : value = some e := h
    rfl

namespace Expr

/-- The tree is read as this expression, and also if it guards a jump. -/
def Means (e : Expr) (tree : Tree) : Prop :=
  ofTree? tree = some e ∧ ∀ guard, Guard.comparison? tree = some guard → guard.IsTestOf e

/-- With `left` before it, the tail makes `e`. -/
def TailMeans (left e : Expr) (tail : Tree) : Prop :=
  joinTail (some left) tail = some e ∧
    ∀ symbol line value tree, Means left tree → ∀ guard,
      Guard.comparison? ⟨symbol, line, value, [tree, tail]⟩ = some guard → guard.IsTestOf e

theorem Means.isTestOf {e : Expr} {tree : Tree} (h : Means e tree) :
    (Guard.ofTree tree).IsTestOf e := by
  unfold Guard.ofTree
  cases hc : Guard.comparison? tree with
  | none => exact h.1
  | some guard => exact h.2 guard hc

theorem Means.condition {e : Expr} {tree : Tree} (h : Means e tree) :
    (Guard.ofTree tree).condition = e :=
  h.isTestOf.condition

theorem means_leaf {e : Expr} {symbol : Symbol} {line : Nat} {value : Option String}
    (h : ofLeaf? symbol line value = some e) (hl : symbol ≠ "LP") (parent : Symbol)
    (parentLine : Nat) (parentValue : Option String) :
    Means e ⟨parent, parentLine, parentValue, [⟨symbol, line, value, []⟩]⟩ := by
  refine ⟨?_, fun guard hg => ?_⟩
  · simp [ofTree?, joinTails, Tree.hasSymbol, hl, h]
  · simp [Guard.comparison?] at hg

theorem means_parens {e : Expr} {tree : Tree} (h : Means e tree) {left right : Tree}
    (hl : left.symbol = "LP") (symbol : Symbol) (line : Nat) (value : Option String) :
    Means e ⟨symbol, line, value, [left, tree, right]⟩ := by
  refine ⟨?_, fun guard hg => ?_⟩
  · simp [ofTree?, ofFirst?, Tree.hasSymbol, hl, h.1]
  · simp [Guard.comparison?, Tree.hasSymbol, hl] at hg
    exact h.2 guard hg

/-- An operand and the tail behind it. -/
theorem means_level {left e : Expr} {tree tail : Tree} (h : Means left tree)
    (ht : TailMeans left e tail) (hl : tree.symbol ≠ "LP") (symbol : Symbol) (line : Nat)
    (value : Option String) : Means e ⟨symbol, line, value, [tree, tail]⟩ := by
  refine ⟨?_, ht.2 symbol line value tree h⟩
  simp [ofTree?, joinTails, Tree.hasSymbol, hl, h.1, ht.1]

theorem tailMeans_nil (left : Expr) (symbol : Symbol) (line : Nat) (value : Option String) :
    TailMeans left left ⟨symbol, line, value, []⟩ := by
  refine ⟨?_, fun symbol line value tree h guard hg => ?_⟩
  · simp [joinTail]
  · simp [Guard.comparison?] at hg
    exact h.2 guard hg

section
variable {left right e : Expr} {tree tail : Tree} {op : String} {opSymbol : Symbol} {opLine : Nat}
  {opValue : Option String} (ho : Tree.operator? ⟨opSymbol, opLine, opValue, []⟩ = some op)
  (hr : Means right tree) (ht : TailMeans (.binary op opLine left right) e tail)
include ho hr ht

/-- Operator, operand and a further tail. -/
theorem tailMeans_join (symbol : Symbol) (line : Nat) (value : Option String) :
    TailMeans left e ⟨symbol, line, value, [⟨opSymbol, opLine, opValue, []⟩, tree, tail]⟩ := by
  refine ⟨?_, fun symbol line value other _ guard hg => ?_⟩
  · simp [joinTail, joinSecond, joinFirst, ofFirst?, ho, hr.1, join, ht.1]
  · simp [Guard.comparison?] at hg

/-- The same with operator and operand in a node of their own. -/
theorem tailMeans_group {group : Symbol} {groupLine : Nat} {groupValue : Option String}
    (hg : Tree.operator? ⟨group, groupLine, groupValue,
      [⟨opSymbol, opLine, opValue, []⟩, tree]⟩ = none) (hs : group ≠ "RELOP") (symbol : Symbol)
    (line : Nat) (value : Option String) :
    TailMeans left e ⟨symbol, line, value,
      [⟨group, groupLine, groupValue, [⟨opSymbol, opLine, opValue, []⟩, tree]⟩, tail]⟩ := by
  refine ⟨?_, fun symbol line value other _ guard hguard => ?_⟩
  · simp [joinTail, joinFirst, ofFirst?, hg, ho, hr.1, join, ht.1]
  · simp [Guard.comparison?, Tree.hasSymbol, hs] at hguard

end

/-- A comparison is a guard of its own. -/
theorem tailMeans_compare {left right : Expr} {tree : Tree} (hr : Means right tree)
    (op : String) (relationLine : Nat) (symbol : Symbol) (line : Nat) (value : Option String) :
    TailMeans left (.binary op relationLine left right)
      ⟨symbol, line, value, [⟨"RELOP", relationLine, some op, []⟩, tree]⟩ := by
  refine ⟨?_, fun symbol line value other h guard hg => ?_⟩
  · simp [joinTail, joinSecond, joinFirst, Tree.operator?, ofFirst?, hr.1, join]
  · simp [Guard.comparison?, Tree.hasSymbol, h.1, hr.1] at hg
    rw [← hg]
    exact ⟨left, right, rfl, rfl, rfl⟩

end Expr

/-! ## Declarations and assignments -/

namespace Declaration

/-- Whether the initializer starts with brackets, and the value in it. -/
structure InitMeans (indexed : Bool) (value : Option Expr) (init : Tree) : Prop where
  brackets : init.startsWith "LB" = indexed
  assign : indexed = false → init.startsWith "ASSIGNOP" = value.isSome ∧
    (init.child? 1).bind Expr.ofTree? = value
  suffixes : (ofInit init).1.isEmpty = !indexed
  initializer : (ofInit init).2 = value.map some

theorem initMeans_nil (symbol : Symbol) (line : Nat) (value : Option String) :
    InitMeans false none ⟨symbol, line, value, []⟩ := by
  constructor <;> simp [ofInit, Tree.startsWith, Tree.child?]

theorem initMeans_assign {e : Expr} {tree assign : Tree} (h : Expr.Means e tree)
    (ha : assign.symbol = "ASSIGNOP") (symbol : Symbol) (line : Nat) (value : Option String) :
    InitMeans false (some e) ⟨symbol, line, value, [assign, tree]⟩ := by
  constructor <;> simp [ofInit, Tree.startsWith, Tree.child?, Tree.hasSymbol, ha, h.1]

theorem initMeans_brackets {indexed : Bool} {e : Option Expr} {init left size right : Tree}
    (h : InitMeans indexed e init) (hl : left.symbol = "LB") (symbol : Symbol) (line : Nat)
    (value : Option String) :
    InitMeans true e ⟨symbol, line, value, [left, size, right, init]⟩ := by
  constructor <;>
    simp [ofInit, ofInitAt, Tree.startsWith, Tree.child?, Tree.hasSymbol, hl, h.initializer]

end Declaration

namespace Statement

def VariableMeans (p : Program) (tree : Tree) : Prop :=
  ∃ statement, ofVariable? tree = some statement ∧ statement.program = p

theorem variableMeans_typed {indexed : Bool} {e : Option Expr} {init : Tree}
    (h : Declaration.InitMeans indexed e init) (typeName name : String) (l l' : Nat)
    (symbol : Symbol) (line : Nat) (value : Option String) :
    VariableMeans (.stored name indexed e)
      ⟨symbol, line, value, [⟨"TYPE", l, some typeName, []⟩, ⟨"ID", l', some name, []⟩, init]⟩ := by
  refine ⟨.declare ⟨line, typeName, name, (Declaration.ofInit init).1,
    (Declaration.ofInit init).2⟩, ?_, ?_⟩
  · simp [ofVariable?, Tree.startsWith, Tree.child?, Tree.hasSymbol, Declaration.ofTree?,
      Tree.childValue?, Declaration.ofInitAt]
  · rw [program, Declaration.program, h.initializer]
    have hs := h.suffixes
    cases indexed <;> cases e <;> cases hsuffix : (Declaration.ofInit init).1 <;>
      simp_all [Program.stored]

theorem variableMeans_untyped {indexed : Bool} {e : Option Expr} {init : Tree}
    (h : Declaration.InitMeans indexed e init) (name : String) (l : Nat) (symbol : Symbol)
    (line : Nat) (value : Option String) :
    VariableMeans (.stored name indexed e)
      ⟨symbol, line, value, [⟨"ID", l, some name, []⟩, init]⟩ := by
  have hb := h.brackets
  cases indexed with
  | true =>
    refine ⟨.assign ⟨line, name, .suffix⟩, ?_, rfl⟩
    simp [ofVariable?, Tree.startsWith, Tree.child?, Tree.hasSymbol, Assignment.ofTree?,
      Tree.childValue?] at hb ⊢
    simp [hb]
  | false =>
    obtain ⟨ha, hv⟩ := h.assign rfl
    refine ⟨.assign ⟨line, name, .value e⟩, ?_, ?_⟩
    · have ht : Assignment.ofTree?
          ⟨symbol, line, value, [⟨"ID", l, some name, []⟩, init]⟩ =
          some ⟨line, name, if init.startsWith "LB" then .suffix
            else if init.startsWith "ASSIGNOP" then .value ((init.child? 1).bind Expr.ofTree?)
            else .value none⟩ := rfl
      rw [hb, ha, hv] at ht
      cases e <;> simpa [ofVariable?, Tree.startsWith, Tree.child?, Tree.hasSymbol] using ht
    · cases e <;> rfl

/-! ## Statements -/

/-- The programs of a statement. A `for` statement with an initializer has two. -/
def PartMeans (ps : List Program) (tree : Tree) : Prop := (ofTree tree).map program = ps

def ProgramMeans (p : Program) (tree : Tree) : Prop := programs (listOfTree tree) = p

/-- What the other branch does. -/
def ElseMeans (p : Program) (tree : Tree) : Prop :=
  programs ((elseAt? [tree] 0).getD []) = p

def StartMeans (ps : List Program) (tree : Tree) : Prop :=
  (((tree.child? 0).bind ofVariable?).toList).map program = ps

def StepMeans (ps : List Program) (tree : Tree) : Prop :=
  ((Assignment.ofStep? tree).map Assignment.program).toList = ps

theorem programs_append (first rest : List Statement) :
    programs (first ++ rest) = (first.map program).foldr .seq (programs rest) := by
  induction first with
  | nil => rfl
  | cons statement first ih => rw [List.cons_append, programs, ih, List.map_cons, List.foldr_cons]

theorem programMeans_nil (symbol : Symbol) (line : Nat) (value : Option String) :
    ProgramMeans .skip ⟨symbol, line, value, []⟩ := by
  simp [ProgramMeans, listOfTree, listOfParts, listOfLast, programs]

section
variable {ps : List Program} {p : Program} {part rest : Tree} (h : PartMeans ps part)
  (hp : part.symbol ≠ "Program") (hr : ProgramMeans p rest) (hs : rest.symbol = "Program")
  (symbol : Symbol) (line : Nat) (value : Option String)
include h hp hr hs

theorem programMeans_part :
    ProgramMeans (ps.foldr .seq p) ⟨symbol, line, value, [part, rest]⟩ := by
  have hl : listOfTree ⟨symbol, line, value, [part, rest]⟩ = ofTree part ++ listOfTree rest := by
    simp [listOfTree, listOfParts, listOfLast, Tree.hasSymbol, hp, hs]
  rw [ProgramMeans, hl, programs_append, h, hr]

theorem programMeans_semi (l : Nat) (v : Option String) :
    ProgramMeans (ps.foldr .seq p) ⟨symbol, line, value, [part, ⟨"SEMI", l, v, []⟩, rest]⟩ := by
  have hl : listOfTree ⟨symbol, line, value, [part, ⟨"SEMI", l, v, []⟩, rest]⟩ =
      ofTree part ++ listOfTree rest := by
    simp [listOfTree, listOfParts, listOfLast, ofTree, Tree.hasSymbol, hp, hs]
  rw [ProgramMeans, hl, programs_append, h, hr]

end

theorem partMeans_variable {p : Program} {children : List Tree} {line : Nat}
    {value : Option String} (h : VariableMeans p ⟨"VariableDeclaration", line, value, children⟩) :
    PartMeans [p] ⟨"VariableDeclaration", line, value, children⟩ := by
  obtain ⟨statement, hs, rfl⟩ := h
  simp [PartMeans, ofTree, hs]

theorem partMeans_struct (first : Tree) (rest : List Tree) (name : String) (l : Nat) (line : Nat)
    (value : Option String) :
    PartMeans [.skip]
      ⟨"StructDeclaration", line, value, first :: ⟨"ID", l, some name, []⟩ :: rest⟩ := by
  simp [PartMeans, ofTree, StructDefinition.ofTree?, Tree.childValue?, Tree.child?, program]

theorem elseMeans_nil (symbol : Symbol) (line : Nat) (value : Option String) :
    ElseMeans .skip ⟨symbol, line, value, []⟩ := by
  simp [ElseMeans, elseAt?, programs]

theorem elseMeans_branch {p : Program} {body : Tree} (h : ProgramMeans p body)
    (a b d : Tree) (symbol : Symbol) (line : Nat) (value : Option String) :
    ElseMeans p ⟨symbol, line, value, [a, b, body, d]⟩ := by
  unfold ProgramMeans at h
  simp [ElseMeans, elseAt?, bodyAt, h]

theorem startMeans_nil (symbol : Symbol) (line : Nat) (value : Option String) :
    StartMeans [] ⟨symbol, line, value, []⟩ := rfl

theorem startMeans_variable {p : Program} {tree : Tree} (h : VariableMeans p tree)
    (symbol : Symbol) (line : Nat) (value : Option String) :
    StartMeans [p] ⟨symbol, line, value, [tree]⟩ := by
  obtain ⟨statement, hs, rfl⟩ := h
  simp [StartMeans, Tree.child?, hs]

theorem stepMeans_nil (symbol : Symbol) (line : Nat) (value : Option String) :
    StepMeans [] ⟨symbol, line, value, []⟩ := rfl

theorem stepMeans_store {e : Expr} {tree : Tree} (h : Expr.Means e tree) (name : String)
    (l : Nat) (assign : Tree) (symbol : Symbol) (line : Nat) (value : Option String) :
    StepMeans [.store name e]
      ⟨symbol, line, value, [⟨"ID", l, some name, []⟩, assign, tree]⟩ := by
  simp [StepMeans, Assignment.ofStep?, Tree.child?, Assignment.program, h.1]

section
variable {c : Expr} {p : Program} {test body : Tree} (hc : Expr.Means c test)
  (hp : ProgramMeans p body) (line : Nat) (value : Option String)
include hc hp

theorem partMeans_if {q : Program} {other : Tree} (hq : ElseMeans q other)
    (t1 t2 t4 t5 t7 : Tree) :
    PartMeans [.branch c p q]
      ⟨"IfStatement", line, value, [t1, t2, test, t4, t5, body, t7, other]⟩ := by
  obtain ⟨symbol, l, v, children⟩ := other
  unfold ProgramMeans at hp
  unfold ElseMeans at hq
  simp only [elseAt?] at hq
  by_cases hlength : children.length ≤ 2
  · simp [hlength, programs] at hq
    simp [PartMeans, ofTree, Tree.child?, elseAt?, bodyAt, hlength, program, hc.condition, hp, hq]
  · simp [hlength] at hq
    simp [PartMeans, ofTree, Tree.child?, elseAt?, bodyAt, hlength, program, hc.condition, hp, hq]

theorem partMeans_while (t1 t2 t4 t5 t7 : Tree) :
    PartMeans [.while c p]
      ⟨"WhileStatement", line, value, [t1, t2, test, t4, t5, body, t7]⟩ := by
  unfold ProgramMeans at hp
  simp [PartMeans, ofTree, Tree.child?, bodyAt, program, hc.condition, hp]

theorem partMeans_doWhile (t1 t2 t4 t5 t6 t8 : Tree) :
    PartMeans [.doWhile p c]
      ⟨"DoWhileStatement", line, value, [t1, t2, body, t4, t5, t6, test, t8]⟩ := by
  unfold ProgramMeans at hp
  simp [PartMeans, ofTree, Tree.child?, bodyAt, program, hc.condition, hp]

theorem partMeans_for {ps qs : List Program} {start step : Tree}
    (hs : StartMeans ps start) (hq : StepMeans qs step) (t1 t2 t4 t6 t8 t9 t11 : Tree) :
    PartMeans (ps ++ [.while c (qs.foldl .seq p)])
      ⟨"ForStatement", line, value,
        [t1, t2, start, t4, test, t6, step, t8, t9, body, t11]⟩ := by
  unfold ProgramMeans at hp
  unfold StartMeans Tree.child? at hs
  unfold StepMeans at hq
  simp [PartMeans, ofTree, Tree.child?, bodyAt, initialOf, program, hc.condition, hp, hs, hq]

end

end Statement
end FrontEnd
