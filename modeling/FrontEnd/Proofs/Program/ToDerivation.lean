import FrontEnd.Proofs.Program.ExprOfDerivation

/-! # Derivations of readings

Whatever can be read as a program is what a derivation of the normalized built-in grammar has at its
leaves, and the derivation is read as this program.

* `Tree.Yields`, `Tree.ForestYields`: derivations with their symbols and leaves.
* `Expr.Written`: how a reading of an expression becomes a tree; tails grow from the right.
* `Program.Reads.exists_tree`: programs.
-/

namespace FrontEnd
set_option autoImplicit false

open Grammar (expanded)

/-! ## Trees and their leaves -/

namespace Tree

/-- A derivation from `symbol` with the leaves `ts`. -/
structure Yields (symbol : Symbol) (ts : List Terminal) (tree : Tree) : Prop where
  derivation : tree.IsDerivation expanded
  symbol : tree.symbol = symbol
  leaves : tree.leaves expanded = ts

structure ForestYields (symbols : List Symbol) (ts : List Terminal) (trees : List Tree) :
    Prop where
  derivation : ∀ tree ∈ trees, tree.IsDerivation expanded
  symbols : trees.map (·.symbol) = symbols
  leaves : forestLeaves expanded trees = ts

theorem forestYields_nil : ForestYields [] [] [] := ⟨by simp, rfl, rfl⟩

def ofTerminal (t : Terminal) : Tree := ⟨t.symbol, t.line, t.value, []⟩

section
variable {symbol : Symbol} {symbols : List Symbol} {ts us : List Terminal} {tree : Tree}
  {trees : List Tree}

theorem yields_ofTerminal {t : Terminal} (hs : t.symbol = symbol)
    (h : expanded.isTerminal symbol = true) : Yields symbol [t] (ofTerminal t) := by
  subst hs
  have hn := Grammar.isNonterminal_eq_false_iff.2 (Grammar.isTerminal_iff.1 h).2
  exact ⟨.leaf _ _ hn, rfl, leaves_terminal h ..⟩

theorem ForestYields.cons (hs : ForestYields symbols us trees) (h : Yields symbol ts tree) :
    ForestYields (symbol :: symbols) (ts ++ us) (tree :: trees) := by
  refine ⟨?_, ?_, ?_⟩
  · intro other hm
    rcases List.mem_cons.1 hm with rfl | hm
    · exact h.derivation
    · exact hs.derivation other hm
  · rw [List.map_cons, h.symbol, hs.symbols]
  · rw [forestLeaves, h.leaves, hs.leaves]

theorem ForestYields.terminals (hs : ForestYields symbols us trees) {names : List Symbol}
    (h : Spells names ts) (ht : ∀ name ∈ names, expanded.isTerminal name = true) :
    ForestYields (names ++ symbols) (ts ++ us) (ts.map ofTerminal ++ trees) := by
  subst h
  induction ts with
  | nil => exact hs
  | cons t ts ih =>
    have htail := ih fun name hm => ht name (List.mem_cons_of_mem _ hm)
    exact htail.cons (yields_ofTerminal rfl (ht t.symbol List.mem_cons_self))

theorem ForestYields.node (h : ForestYields symbols ts trees)
    (hp : symbols ∈ expanded.productionsOf symbol) :
    Yields symbol ts ⟨symbol, 0, none, trees⟩ := by
  have hn : expanded.isNonterminal symbol = true := by
    obtain ⟨rule, hr, rfl, -⟩ := Grammar.exists_rule hp
    exact Grammar.isNonterminal_left hr
  refine ⟨.of_children (by rwa [h.symbols]) h.derivation .., rfl, ?_⟩
  rw [leaves_node hn, h.leaves]

end

end Tree

/-! ## Expressions -/

/-- There is a tree for the reading, and one with any tail behind it. -/
structure Expr.Written (level : Level) (ts : List Terminal) (e : Expr) : Prop where
  tree : ∃ tree, Tree.Yields level.symbol ts tree ∧ e.Means tree
  extend : level ≠ .relation → ∀ tail, level.tail? = some tail → ∀ us rest whole,
    Tree.Yields tail us rest → e.TailMeans whole rest →
    ∃ tree, Tree.Yields level.symbol (ts ++ us) tree ∧ whole.Means tree

namespace Expr
variable {level : Level} {tail : Symbol} {ts us : List Terminal} {a b e : Expr}

/-- An operand with a tail. -/
theorem exists_level {tree rest : Tree} (ht : level.tail? = some tail)
    (h : Tree.Yields level.tighter.symbol ts tree) (ha : a.Means tree)
    (hr : Tree.Yields tail us rest) (he : a.TailMeans e rest) :
    ∃ tree, Tree.Yields level.symbol (ts ++ us) tree ∧ e.Means tree := by
  have hforest := (Tree.forestYields_nil.cons hr).cons h
  rw [List.append_nil] at hforest
  have hne : tree.symbol ≠ "LP" := by
    rw [h.symbol]
    cases level <;> decide
  refine ⟨_, hforest.node ?_, means_level ha he hne ..⟩
  rw [Level.productionsOf_symbol ht]
  exact List.mem_singleton_self _

theorem exists_tail_nil (ht : level.tail? = some tail) (a : Expr) :
    ∃ tree, Tree.Yields tail [] tree ∧ a.TailMeans a tree := by
  have hp : [] ∈ expanded.productionsOf tail := by
    cases level <;> cases ht <;> decide
  exact ⟨_, Tree.forestYields_nil.node hp, tailMeans_nil ..⟩

/-- Operator and operand come before a tail. -/
theorem exists_tail_join (hr : level ≠ .relation) (ht : level.tail? = some tail) {t : Terminal}
    {op : String} (ho : (t.symbol, op) ∈ level.operators) {tree rest : Tree}
    (hb : Tree.Yields level.tighter.symbol ts tree) (hmean : b.Means tree)
    (hrest : Tree.Yields tail us rest) (he : TailMeans (.binary op t.line a b) e rest) :
    ∃ tree, Tree.Yields tail (t :: (ts ++ us)) tree ∧ a.TailMeans e tree := by
  obtain ⟨hterm, hop⟩ := Level.operator_mem ho
  have hleaf := Tree.yields_ofTerminal rfl hterm
  cases hg : level.group? with
  | none =>
    have hforest := ((Tree.forestYields_nil.cons hrest).cons hb).cons hleaf
    rw [List.append_nil] at hforest
    refine ⟨_, hforest.node ?_, tailMeans_join (hop ..) hmean he ..⟩
    rw [Level.productionsOf_tail ht hg hr]
    exact List.mem_append_left _ (List.mem_map_of_mem ho)
  | some group =>
    have hgroup : Tree.Yields group _ _ := ((Tree.forestYields_nil.cons hb).cons hleaf).node (by
      rw [Level.productionsOf_group hg]
      exact List.mem_map_of_mem ho)
    have hforest := (Tree.forestYields_nil.cons hrest).cons hgroup
    rw [List.append_nil, List.append_nil] at hforest
    have hnone : ∀ tree, Tree.operator?
        ⟨group, 0, none, [⟨t.symbol, t.line, t.value, []⟩, tree]⟩ = none := by
      cases level <;> cases hg <;> intro tree <;> rfl
    have hne : group ≠ "RELOP" := by
      cases level <;> cases hg <;> decide
    refine ⟨_, hforest.node ?_, tailMeans_group (hop ..) hmean he (hnone tree) hne ..⟩
    rw [Level.productionsOf_tail_of_group ht hg]
    exact List.mem_cons_self

theorem written_operand (h : Written level.tighter ts a) : Written level ts a := by
  cases ht : level.tail? with
  | none =>
    obtain rfl : level = .factor := by
      cases level <;> first | rfl | cases ht
    exact h
  | some tail =>
    obtain ⟨tree, hy, ha⟩ := h.tree
    refine ⟨?_, fun _ tail' ht' us rest whole hr he => exists_level ht' hy ha hr he⟩
    obtain ⟨rest, hr, he⟩ := exists_tail_nil ht a
    obtain ⟨whole, hw, hmean⟩ := exists_level ht hy ha hr he
    rw [List.append_nil] at hw
    exact ⟨whole, hw, hmean⟩

theorem written_join {t : Terminal} {op : String} (ha : Written level ts a)
    (ho : (t.symbol, op) ∈ level.operators) (hb : Written level.tighter us b) :
    Written level (ts ++ t :: us) (.binary op t.line a b) := by
  have hr : level ≠ .relation := by
    rintro rfl
    simp [Level.operators] at ho
  have hextend : ∀ tail, level.tail? = some tail → ∀ vs rest whole, Tree.Yields tail vs rest →
      TailMeans (.binary op t.line a b) whole rest →
      ∃ tree, Tree.Yields level.symbol (ts ++ t :: us ++ vs) tree ∧ whole.Means tree := by
    intro tail ht vs rest whole hrest he
    obtain ⟨tree, hy, hmean⟩ := hb.tree
    obtain ⟨join, hj, hja⟩ := exists_tail_join hr ht ho hy hmean hrest he
    have hwhole := ha.extend hr tail ht _ join whole hj hja
    simpa using hwhole
  refine ⟨?_, fun _ => hextend⟩
  cases ht : level.tail? with
  | none =>
    obtain rfl : level = .factor := by
      cases level <;> first | rfl | cases ht
    simp [Level.operators] at ho
  | some tail =>
    obtain ⟨rest, hrest, he⟩ := exists_tail_nil ht (.binary op t.line a b)
    have hwhole := hextend tail ht [] rest _ hrest he
    rwa [List.append_nil] at hwhole

theorem written_compare {t : Terminal} {op : String} (ha : Written .sum ts a)
    (ht : t.symbol = "RELOP") (hv : t.value = some op) (hb : Written .sum us b) :
    Written .relation (ts ++ t :: us) (.binary op t.line a b) := by
  obtain ⟨tree, hy, hmean⟩ := ha.tree
  obtain ⟨other, hy', hmean'⟩ := hb.tree
  obtain ⟨symbol, value, line⟩ := t
  obtain rfl : symbol = "RELOP" := ht
  obtain rfl : value = some op := hv
  have hleaf : Tree.Yields "RELOP" [⟨"RELOP", some op, line⟩] _ :=
    Tree.yields_ofTerminal rfl (by decide)
  have htail : Tree.Yields "RelationSum" _ _ :=
    ((Tree.forestYields_nil.cons hy').cons hleaf).node (by decide)
  rw [List.append_nil] at htail
  refine ⟨?_, fun hr => absurd rfl hr⟩
  exact exists_level rfl hy hmean htail (tailMeans_compare hmean' ..)

theorem written_leaf {t : Terminal} (hm : t.symbol ∈ ["ID", "INT", "FLOAT"])
    (he : ofLeaf? t.symbol t.line t.value = some e) : Written .factor [t] e := by
  have hleaves : ∀ name ∈ ["ID", "INT", "FLOAT"], expanded.isTerminal name = true ∧
      name ≠ "LP" ∧ [name] ∈ expanded.productionsOf "Factor" := by decide
  obtain ⟨hterm, hne, hp⟩ := hleaves _ hm
  have hnode := (Tree.forestYields_nil.cons (Tree.yields_ofTerminal rfl hterm)).node hp
  refine ⟨⟨_, hnode, means_leaf he hne ..⟩, fun _ tail ht => ?_⟩
  cases ht

theorem written_parens {left right : Terminal} (hl : left.symbol = "LP")
    (hr : right.symbol = "RP") (h : Written .disjunction ts e) :
    Written .factor (left :: (ts ++ [right])) e := by
  obtain ⟨tree, hy, hmean⟩ := h.tree
  have hleft := Tree.yields_ofTerminal hl (by decide)
  have hright := Tree.yields_ofTerminal hr (by decide)
  have hforest := ((Tree.forestYields_nil.cons hright).cons hy).cons hleft
  refine ⟨⟨_, hforest.node (by decide), means_parens hmean hl ..⟩, fun _ tail ht => ?_⟩
  cases ht

theorem Reads.written (h : Reads level ts e) : Written level ts e := by
  induction h with
  | int text line => exact written_leaf (show "INT" ∈ _ by decide) rfl
  | float text line => exact written_leaf (show "FLOAT" ∈ _ by decide) rfl
  | name text line => exact written_leaf (show "ID" ∈ _ by decide) rfl
  | parens hl hr _ ih => exact written_parens hl hr ih
  | operand _ ih => exact written_operand ih
  | join _ ho _ iha ihb => exact written_join iha ho ihb
  | compare _ ht hv _ iha ihb => exact written_compare iha ht hv ihb

end Expr

/-! ## Statements -/

theorem Spells.exists_cons {name : Symbol} {names : List Symbol} {ts : List Terminal}
    (h : Spells (name :: names) ts) : ∃ t us, ts = t :: us ∧ t.symbol = name ∧ Spells names us :=
  List.map_eq_cons_iff.1 h

theorem Spells.eq_nil {ts : List Terminal} (h : Spells [] ts) : ts = [] :=
  List.map_eq_nil_iff.1 h

theorem Members.exists_tree {ts : List Terminal} (h : Members ts) :
    ∃ tree, Tree.Yields "StructBody" ts tree := by
  induction h with
  | nil => exact ⟨_, Tree.forestYields_nil.node (by decide)⟩
  | cons hh _ ih =>
    obtain ⟨rest, hrest⟩ := ih
    have hforest := (Tree.forestYields_nil.cons hrest).terminals hh (by decide)
    rw [List.append_nil] at hforest
    exact ⟨_, hforest.node (by decide)⟩

namespace Program

theorem ReadsInit.exists_tree {ts : List Terminal} {indexed : Bool} {value : Option Expr}
    (h : ReadsInit ts indexed value) :
    ∃ tree, Tree.Yields "Init" ts tree ∧ Declaration.InitMeans indexed value tree := by
  induction h with
  | none => exact ⟨_, Tree.forestYields_nil.node (by decide), Declaration.initMeans_nil ..⟩
  | assign ha he =>
    obtain ⟨tree, hy, hmean⟩ := he.written.tree
    have hforest := (Tree.forestYields_nil.cons hy).cons
      (Tree.yields_ofTerminal ha (by decide))
    rw [List.append_nil] at hforest
    exact ⟨_, hforest.node (by decide), Declaration.initMeans_assign hmean ha ..⟩
  | brackets hh _ ih =>
    obtain ⟨init, hy, hmean⟩ := ih
    have hforest := (Tree.forestYields_nil.cons hy).terminals hh (by decide)
    rw [List.append_nil] at hforest
    obtain ⟨left, _, rfl, hl, hh⟩ := hh.exists_cons
    obtain ⟨size, _, rfl, -, hh⟩ := hh.exists_cons
    obtain ⟨right, _, rfl, -, hh⟩ := hh.exists_cons
    obtain rfl := hh.eq_nil
    exact ⟨_, hforest.node (by decide), Declaration.initMeans_brackets hmean hl ..⟩

theorem ReadsVariable.exists_tree {ts : List Terminal} {p : Program} (h : ReadsVariable ts p)
    (hl : ∀ t ∈ ts, t.IsLexical) :
    ∃ children, Tree.Yields "VariableDeclaration" ts ⟨"VariableDeclaration", 0, none, children⟩ ∧
      Statement.VariableMeans p ⟨"VariableDeclaration", 0, none, children⟩ := by
  cases h with
  | @named type ts name line indexed value ht hi =>
    obtain ⟨init, hy, hmean⟩ := hi.exists_tree
    have hname : Tree.Yields "ID" [⟨"ID", some name, line⟩] _ :=
      Tree.yields_ofTerminal rfl (by decide)
    have hforest := (Tree.forestYields_nil.cons hy).cons hname
    rw [List.append_nil] at hforest
    cases ht with
    | none => exact ⟨_, hforest.node (by decide), Statement.variableMeans_untyped hmean ..⟩
    | some hs =>
      have hforest' := hforest.terminals hs (by decide)
      obtain ⟨⟨symbol, v, l⟩, _, rfl, ht, hs⟩ := hs.exists_cons
      obtain rfl := hs.eq_nil
      obtain rfl : symbol = "TYPE" := ht
      obtain ⟨typeName, hv⟩ := (hl ⟨"TYPE", v, l⟩ (by simp)).text (.inl rfl)
      obtain rfl : v = some typeName := hv
      exact ⟨_, hforest'.node (by decide), Statement.variableMeans_typed hmean ..⟩

theorem ReadsStart.exists_tree {ts : List Terminal} {ps : List Program} (h : ReadsStart ts ps)
    (hl : ∀ t ∈ ts, t.IsLexical) :
    ∃ tree, Tree.Yields "ForInit" ts tree ∧ Statement.StartMeans ps tree := by
  cases h with
  | none => exact ⟨_, Tree.forestYields_nil.node (by decide), Statement.startMeans_nil ..⟩
  | some h =>
    obtain ⟨children, hy, hmean⟩ := h.exists_tree hl
    have hforest := Tree.forestYields_nil.cons hy
    rw [List.append_nil] at hforest
    exact ⟨_, hforest.node (by decide), Statement.startMeans_variable hmean ..⟩

theorem ReadsStep.exists_tree {ts : List Terminal} {ps : List Program} (h : ReadsStep ts ps) :
    ∃ tree, Tree.Yields "ForStep" ts tree ∧ Statement.StepMeans ps tree := by
  cases h with
  | none => exact ⟨_, Tree.forestYields_nil.node (by decide), Statement.stepMeans_nil ..⟩
  | @some _ assign name line _ ha he =>
    obtain ⟨tree, hy, hmean⟩ := he.written.tree
    have hname : Tree.Yields "ID" [⟨"ID", Option.some name, line⟩] _ :=
      Tree.yields_ofTerminal rfl (by decide)
    have hforest := ((Tree.forestYields_nil.cons hy).cons
      (Tree.yields_ofTerminal ha (by decide))).cons hname
    rw [List.append_nil] at hforest
    exact ⟨_, hforest.node (by decide), Statement.stepMeans_store hmean ..⟩

/-- There is a tree for the reading of a program. -/
def Written (ts : List Terminal) (p : Program) : Prop :=
  ∃ tree, Tree.Yields "Program" ts tree ∧ Statement.ProgramMeans p tree

/-- There is a tree for a statement. -/
def PartWritten (name : Symbol) (ts : List Terminal) (ps : List Program) : Prop :=
  ∃ tree, Tree.Yields name ts tree ∧ Statement.PartMeans ps tree

section
variable {name : Symbol} {ts rest : List Terminal} {ps : List Program} {q : Program}
  (hp : PartWritten name ts ps) (hq : Written rest q)
include hp hq

theorem written_part (hn : name ∈ ["IfStatement", "WhileStatement", "ForStatement"]) :
    Written (ts ++ rest) (ps.foldr .seq q) := by
  have hnames : ∀ name ∈ ["IfStatement", "WhileStatement", "ForStatement"],
    name ≠ "Program" ∧ [name, "Program"] ∈ expanded.productionsOf "Program" := by decide
  obtain ⟨hne, hprod⟩ := hnames name hn
  obtain ⟨part, hy, hmean⟩ := hp
  obtain ⟨tree, hrest, hmean'⟩ := hq
  have hforest := (Tree.forestYields_nil.cons hrest).cons hy
  rw [List.append_nil] at hforest
  exact ⟨_, hforest.node hprod,
    Statement.programMeans_part hmean (by rwa [hy.symbol]) hmean' hrest.symbol ..⟩

theorem written_partSemi {semi : List Terminal} (hs : Spells ["SEMI"] semi)
    (hn : name ∈ ["VariableDeclaration", "StructDeclaration", "DoWhileStatement"]) :
    Written (ts ++ (semi ++ rest)) (ps.foldr .seq q) := by
  have hnames : ∀ name ∈ ["VariableDeclaration", "StructDeclaration", "DoWhileStatement"],
    name ≠ "Program" ∧ [name, "SEMI", "Program"] ∈ expanded.productionsOf "Program" := by decide
  obtain ⟨hne, hprod⟩ := hnames name hn
  obtain ⟨part, hy, hmean⟩ := hp
  obtain ⟨tree, hrest, hmean'⟩ := hq
  have hforest := ((Tree.forestYields_nil.cons hrest).terminals hs (by decide)).cons hy
  rw [List.append_nil] at hforest
  obtain ⟨⟨symbol, v, l⟩, _, rfl, hsymbol, hs⟩ := hs.exists_cons
  obtain rfl := hs.eq_nil
  obtain rfl : symbol = "SEMI" := hsymbol
  exact ⟨_, hforest.node hprod,
    Statement.programMeans_semi hmean (by rwa [hy.symbol]) hmean' hrest.symbol ..⟩

end

theorem partWritten_struct {head members tail : List Terminal}
    (hh : Spells ["STRUCT", "ID", "LC"] head) (hl : ∀ t ∈ head, t.IsLexical)
    (hm : Members members) (ht : Spells ["RC"] tail) :
    PartWritten "StructDeclaration" (head ++ (members ++ tail)) [.skip] := by
  obtain ⟨body, hbody⟩ := hm.exists_tree
  have hforest := ((Tree.forestYields_nil.terminals ht (by decide)).cons hbody).terminals hh
    (by decide)
  simp only [List.append_nil] at hforest
  obtain ⟨key, _, rfl, -, hh⟩ := hh.exists_cons
  obtain ⟨⟨symbol, v, l⟩, _, rfl, hname, hh⟩ := hh.exists_cons
  obtain rfl : symbol = "ID" := hname
  obtain ⟨name, hv, -⟩ := (hl ⟨"ID", v, l⟩ (by simp)).name rfl
  obtain rfl : v = some name := hv
  exact ⟨_, hforest.node (by decide), Statement.partMeans_struct ..⟩

/-- What stands behind the first branch, the closing brace included. -/
def OtherWritten (ts : List Terminal) (q : Program) : Prop :=
  ∃ tree, Tree.Yields "ElsePart" ts tree ∧ Statement.ElseMeans q tree

theorem otherWritten_nil : OtherWritten [] .skip :=
  ⟨_, Tree.forestYields_nil.node (by decide), Statement.elseMeans_nil ..⟩

theorem otherWritten_else {head body last : List Terminal} {q : Program}
    (hh : Spells ["ELSE", "LC"] head) (hq : Written body q) (hl : Spells ["RC"] last) :
    OtherWritten (head ++ (body ++ last)) q := by
  obtain ⟨tree, hy, hmean⟩ := hq
  have hforest := ((Tree.forestYields_nil.terminals hl (by decide)).cons hy).terminals hh
    (by decide)
  rw [List.append_nil] at hforest
  obtain ⟨key, _, rfl, -, hh⟩ := hh.exists_cons
  obtain ⟨left, _, rfl, -, hh⟩ := hh.exists_cons
  obtain rfl := hh.eq_nil
  obtain ⟨right, _, rfl, -, hl⟩ := hl.exists_cons
  obtain rfl := hl.eq_nil
  exact ⟨_, hforest.node (by decide), Statement.elseMeans_branch hmean ..⟩

section
variable {head test mid body tail : List Terminal} {c : Expr} {p : Program}

theorem partWritten_if {other : List Terminal} {q : Program} (hh : Spells ["IF", "LP"] head)
    (hc : Expr.Reads .disjunction test c) (hm : Spells ["RP", "LC"] mid) (hp : Written body p)
    (ht : Spells ["RC"] tail) (hq : OtherWritten other q) :
    PartWritten "IfStatement" (head ++ (test ++ (mid ++ (body ++ (tail ++ other)))))
      [.branch c p q] := by
  obtain ⟨cond, hcond, hmean⟩ := hc.written.tree
  obtain ⟨inner, hinner, hmean'⟩ := hp
  obtain ⟨rest, hrest, hmean''⟩ := hq
  have hforest := (((((Tree.forestYields_nil.cons hrest).terminals ht (by decide)).cons
    hinner).terminals hm (by decide)).cons hcond).terminals hh (by decide)
  rw [List.append_nil] at hforest
  obtain ⟨t1, _, rfl, -, hh⟩ := hh.exists_cons
  obtain ⟨t2, _, rfl, -, hh⟩ := hh.exists_cons
  obtain rfl := hh.eq_nil
  obtain ⟨t4, _, rfl, -, hm⟩ := hm.exists_cons
  obtain ⟨t5, _, rfl, -, hm⟩ := hm.exists_cons
  obtain rfl := hm.eq_nil
  obtain ⟨t7, _, rfl, -, ht⟩ := ht.exists_cons
  obtain rfl := ht.eq_nil
  exact ⟨_, hforest.node (by decide), Statement.partMeans_if hmean hmean' 0 none hmean'' ..⟩

theorem partWritten_while (hh : Spells ["WHILE", "LP"] head)
    (hc : Expr.Reads .disjunction test c) (hm : Spells ["RP", "LC"] mid) (hp : Written body p)
    (ht : Spells ["RC"] tail) :
    PartWritten "WhileStatement" (head ++ (test ++ (mid ++ (body ++ tail)))) [.while c p] := by
  obtain ⟨cond, hcond, hmean⟩ := hc.written.tree
  obtain ⟨inner, hinner, hmean'⟩ := hp
  have hforest := ((((Tree.forestYields_nil.terminals ht (by decide)).cons
    hinner).terminals hm (by decide)).cons hcond).terminals hh (by decide)
  rw [List.append_nil] at hforest
  obtain ⟨t1, _, rfl, -, hh⟩ := hh.exists_cons
  obtain ⟨t2, _, rfl, -, hh⟩ := hh.exists_cons
  obtain rfl := hh.eq_nil
  obtain ⟨t4, _, rfl, -, hm⟩ := hm.exists_cons
  obtain ⟨t5, _, rfl, -, hm⟩ := hm.exists_cons
  obtain rfl := hm.eq_nil
  obtain ⟨t7, _, rfl, -, ht⟩ := ht.exists_cons
  obtain rfl := ht.eq_nil
  exact ⟨_, hforest.node (by decide), Statement.partMeans_while hmean hmean' 0 none ..⟩

theorem partWritten_doWhile (hh : Spells ["DO", "LC"] head) (hp : Written body p)
    (hm : Spells ["RC", "WHILE", "LP"] mid) (hc : Expr.Reads .disjunction test c)
    (ht : Spells ["RP"] tail) :
    PartWritten "DoWhileStatement" (head ++ (body ++ (mid ++ (test ++ tail))))
      [.doWhile p c] := by
  obtain ⟨cond, hcond, hmean⟩ := hc.written.tree
  obtain ⟨inner, hinner, hmean'⟩ := hp
  have hforest := ((((Tree.forestYields_nil.terminals ht (by decide)).cons
    hcond).terminals hm (by decide)).cons hinner).terminals hh (by decide)
  rw [List.append_nil] at hforest
  obtain ⟨t1, _, rfl, -, hh⟩ := hh.exists_cons
  obtain ⟨t2, _, rfl, -, hh⟩ := hh.exists_cons
  obtain rfl := hh.eq_nil
  obtain ⟨t4, _, rfl, -, hm⟩ := hm.exists_cons
  obtain ⟨t5, _, rfl, -, hm⟩ := hm.exists_cons
  obtain ⟨t6, _, rfl, -, hm⟩ := hm.exists_cons
  obtain rfl := hm.eq_nil
  obtain ⟨t8, _, rfl, -, ht⟩ := ht.exists_cons
  obtain rfl := ht.eq_nil
  exact ⟨_, hforest.node (by decide), Statement.partMeans_doWhile hmean hmean' 0 none ..⟩

theorem partWritten_for {start semi semi' step : List Terminal} {first next : List Program}
    (hh : Spells ["FOR", "LP"] head) (hf : ReadsStart start first)
    (hl : ∀ t ∈ start, t.IsLexical) (hs : Spells ["SEMI"] semi)
    (hc : Expr.Reads .disjunction test c) (hs' : Spells ["SEMI"] semi')
    (hn : ReadsStep step next) (hm : Spells ["RP", "LC"] mid) (hp : Written body p)
    (ht : Spells ["RC"] tail) :
    PartWritten "ForStatement" (head ++ (start ++ (semi ++ (test ++ (semi' ++ (step ++ (mid ++
      (body ++ tail)))))))) (first ++ [.while c (next.foldl .seq p)]) := by
  obtain ⟨opening, hopening, hfirst⟩ := hf.exists_tree hl
  obtain ⟨cond, hcond, hmean⟩ := hc.written.tree
  obtain ⟨stepping, hstepping, hnext⟩ := hn.exists_tree
  obtain ⟨inner, hinner, hmean'⟩ := hp
  have hforest := ((((((((Tree.forestYields_nil.terminals ht (by decide)).cons hinner).terminals
    hm (by decide)).cons hstepping).terminals hs' (by decide)).cons hcond).terminals hs
    (by decide)).cons hopening).terminals hh (by decide)
  rw [List.append_nil] at hforest
  obtain ⟨t1, _, rfl, -, hh⟩ := hh.exists_cons
  obtain ⟨t2, _, rfl, -, hh⟩ := hh.exists_cons
  obtain rfl := hh.eq_nil
  obtain ⟨t4, _, rfl, -, hs⟩ := hs.exists_cons
  obtain rfl := hs.eq_nil
  obtain ⟨t6, _, rfl, -, hs'⟩ := hs'.exists_cons
  obtain rfl := hs'.eq_nil
  obtain ⟨t8, _, rfl, -, hm⟩ := hm.exists_cons
  obtain ⟨t9, _, rfl, -, hm⟩ := hm.exists_cons
  obtain rfl := hm.eq_nil
  obtain ⟨t11, _, rfl, -, ht⟩ := ht.exists_cons
  obtain rfl := ht.eq_nil
  exact ⟨_, hforest.node (by decide),
    Statement.partMeans_for hmean hmean' 0 none hfirst hnext ..⟩

end

theorem Reads.written {ts : List Terminal} {p : Program} (h : Reads ts p)
    (hl : ∀ t ∈ ts, t.IsLexical) : Written ts p := by
  induction h with
  | nil => exact ⟨_, Tree.forestYields_nil.node (by decide), Statement.programMeans_nil ..⟩
  | named hp hs _ ih =>
    obtain ⟨children, hy, hmean⟩ := hp.exists_tree fun t ht => hl t (by simp [ht])
    exact written_partSemi ⟨_, hy, Statement.partMeans_variable hmean⟩
      (ih fun t ht => hl t (by simp [ht])) hs (by decide)
  | @struct head members tail rest q hh hm ht _ ih =>
    obtain ⟨close, semi, rfl, hclose, hsemi⟩ := ht.exists_cons
    have hpart := partWritten_struct hh (fun t ht => hl t (by simp [ht])) hm
      (show Spells ["RC"] [close] from congrArg (fun name => [name]) hclose)
    have hwhole := written_partSemi hpart (ih fun t ht => hl t (by simp [ht])) hsemi (by decide)
    simpa using hwhole
  | ifThen hh hc hm _ ht _ ihp ihq =>
    have hpart := partWritten_if hh hc hm (ihp fun t ht => hl t (by simp [ht])) ht
      otherWritten_nil
    have hwhole := written_part hpart (ihq fun t ht => hl t (by simp [ht])) (by decide)
    simpa using hwhole
  | ifElse hh hc hm _ ht _ hlast _ ihp ihr ihq =>
    obtain ⟨close, head, rfl, hclose, hhead⟩ := ht.exists_cons
    have hother := otherWritten_else hhead (ihr fun t ht => hl t (by simp [ht])) hlast
    have hpart := partWritten_if hh hc hm (ihp fun t ht => hl t (by simp [ht]))
      (show Spells ["RC"] [close] from congrArg (fun name => [name]) hclose) hother
    have hwhole := written_part hpart (ihq fun t ht => hl t (by simp [ht])) (by decide)
    simpa using hwhole
  | whileLoop hh hc hm _ ht _ ihp ihq =>
    have hpart := partWritten_while hh hc hm (ihp fun t ht => hl t (by simp [ht])) ht
    have hwhole := written_part hpart (ihq fun t ht => hl t (by simp [ht])) (by decide)
    simpa using hwhole
  | doWhile hh _ hm hc ht _ ihp ihq =>
    obtain ⟨right, semi, rfl, hright, hsemi⟩ := ht.exists_cons
    have hpart := partWritten_doWhile hh (ihp fun t ht => hl t (by simp [ht])) hm hc
      (show Spells ["RP"] [right] from congrArg (fun name => [name]) hright)
    have hwhole := written_partSemi hpart (ihq fun t ht => hl t (by simp [ht])) hsemi
      (by decide)
    simpa using hwhole
  | forLoop hh hf hs hc hs' hn hm _ ht _ ihp ihq =>
    have hpart := partWritten_for hh hf (fun t ht => hl t (by simp [ht])) hs hc hs' hn hm
      (ihp fun t ht => hl t (by simp [ht])) ht
    have hwhole := written_part hpart (ihq fun t ht => hl t (by simp [ht])) (by decide)
    simpa using hwhole

end Program
end FrontEnd
