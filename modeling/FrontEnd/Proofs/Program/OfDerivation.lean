import FrontEnd.Proofs.Program.ExprOfDerivation

/-! # Programs of derivations

As for expressions: what a derivation with proper leaves is read as is a reading of its leaves.

* `Tree.StatementRead`, `Tree.statementRead_of_isRegular`: all nonterminals for statements.
-/

namespace FrontEnd
set_option autoImplicit false

open Grammar (expanded)

namespace Program

/-- The terminals and programs can stand before any program. -/
def Precedes (ts : List Terminal) (ps : List Program) : Prop :=
  ∀ rest q, Reads rest q → Reads (ts ++ rest) (ps.foldr .seq q)

/-- The same when a semicolon comes between. -/
def PrecedesSemi (ts : List Terminal) (ps : List Program) : Prop :=
  ∀ semi, Spells ["SEMI"] semi → Precedes (ts ++ semi) ps

end Program

namespace Tree

structure StatementRead (tree : Tree) : Prop where
  init : tree.symbol = "Init" → ∃ indexed value,
    Program.ReadsInit (tree.leaves expanded) indexed value ∧
      tree.Both (Declaration.InitMeans indexed value)
  named : tree.symbol = "VariableDeclaration" → ∃ p,
    Program.ReadsVariable (tree.leaves expanded) p ∧ tree.Both (Statement.VariableMeans p)
  members : tree.symbol = "StructBody" → Members (tree.leaves expanded)
  start : tree.symbol = "ForInit" → ∃ ps,
    Program.ReadsStart (tree.leaves expanded) ps ∧ tree.Both (Statement.StartMeans ps)
  step : tree.symbol = "ForStep" → ∃ ps,
    Program.ReadsStep (tree.leaves expanded) ps ∧ tree.Both (Statement.StepMeans ps)
  other : tree.symbol = "ElsePart" → ∃ q, tree.Both (Statement.ElseMeans q) ∧
    (tree.leaves expanded = [] ∧ q = .skip ∨ ∃ head ts last,
      tree.leaves expanded = head ++ (ts ++ last) ∧ Spells ["ELSE", "LC"] head ∧
        Program.Reads ts q ∧ Spells ["RC"] last)
  part : tree.symbol ∈ ["IfStatement", "WhileStatement", "ForStatement"] → ∃ ps,
    Program.Precedes (tree.leaves expanded) ps ∧ tree.Both (Statement.PartMeans ps)
  partSemi : tree.symbol ∈ ["VariableDeclaration", "StructDeclaration", "DoWhileStatement"] →
    ∃ ps, Program.PrecedesSemi (tree.leaves expanded) ps ∧ tree.Both (Statement.PartMeans ps)
  program : tree.symbol = "Program" → ∃ p,
    Program.Reads (tree.leaves expanded) p ∧ tree.Both (Statement.ProgramMeans p)

theorem exists_reads {tree : Tree} (h : tree.IsRegular) (hs : tree.symbol = "Expression") :
    ∃ e, Expr.Reads .disjunction (tree.leaves expanded) e ∧ tree.Both e.Means :=
  (expressionRead_of_isRegular h).level .disjunction hs

theorem IsRegular.spells {tree : Tree} (h : tree.IsRegular) {symbol : Symbol}
    (hs : tree.symbol = symbol) (ht : expanded.isTerminal symbol = true) :
    Spells [symbol] (tree.leaves expanded) := by
  obtain ⟨line, value, rfl, -⟩ := h.exists_leaf hs ht
  rw [leaves_terminal ht]
  rfl

section
variable {children : List Tree} (hd : ∀ child ∈ children, child.IsRegular)
  (ih : ∀ child ∈ children, child.StatementRead) (line : Nat) (value : Option String)
include hd ih

theorem exists_readsInit (hp : children.map (·.symbol) ∈ expanded.productionsOf "Init") :
    ∃ indexed e, Program.ReadsInit (leaves expanded ⟨"Init", line, value, children⟩) indexed e ∧
      Both (Declaration.InitMeans indexed e) ⟨"Init", line, value, children⟩ := by
  have hn : expanded.isNonterminal "Init" = true := by decide
  have hcases : children.map (·.symbol) ∈
    [["ASSIGNOP", "Expression"], ["LB", "INT", "RB", "Init"], []] := hp
  simp only [Both, leaves_node hn, skeleton_node hn]
  simp only [List.mem_cons, List.not_mem_nil, or_false, List.map_eq_cons_iff,
    List.map_eq_nil_iff] at hcases
  obtain ⟨assign, _, rfl, ha, tree, _, rfl, ht, rfl⟩ |
    ⟨left, _, rfl, hl, size, _, rfl, hs, right, _, rfl, hr, init, _, rfl, hi, rfl⟩ | rfl := hcases
  · obtain ⟨l, v, rfl, -⟩ := (hd assign (by simp)).exists_leaf ha (by decide)
    obtain ⟨e, hread, he⟩ := exists_reads (hd tree (by simp)) ht
    simp (disch := decide) only [forestLeaves, leaves_terminal, forestSkeleton,
      skeleton_terminal, List.append_nil]
    exact ⟨false, some e, .assign rfl hread, Declaration.initMeans_assign he.1 rfl ..,
      Declaration.initMeans_assign he.2 rfl ..⟩
  · have hhead : Spells ["LB", "INT", "RB"] _ :=
      ((hd left (by simp)).spells hl (by decide)).append
        (((hd size (by simp)).spells hs (by decide)).append
          ((hd right (by simp)).spells hr (by decide)))
    obtain ⟨indexed, e, hread, he⟩ := (ih init (by simp)).init hi
    have hreads := Program.ReadsInit.brackets hhead hread
    refine ⟨true, e, by simpa [forestLeaves] using hreads, ?_, ?_⟩
    · exact Declaration.initMeans_brackets he.1 hl ..
    · rw [forestSkeleton, forestSkeleton, forestSkeleton, forestSkeleton, forestSkeleton]
      exact Declaration.initMeans_brackets he.2 (by rwa [symbol_skeleton]) ..
  · exact ⟨false, none, .none, Declaration.initMeans_nil .., Declaration.initMeans_nil ..⟩

theorem exists_readsVariable
    (hp : children.map (·.symbol) ∈ expanded.productionsOf "VariableDeclaration") :
    ∃ p, Program.ReadsVariable
        (leaves expanded ⟨"VariableDeclaration", line, value, children⟩) p ∧
      Both (Statement.VariableMeans p) ⟨"VariableDeclaration", line, value, children⟩ := by
  have hn : expanded.isNonterminal "VariableDeclaration" = true := by decide
  have hcases : children.map (·.symbol) ∈ [["TYPE", "ID", "Init"], ["ID", "Init"]] := hp
  simp only [Both, leaves_node hn, skeleton_node hn]
  simp only [List.mem_cons, List.not_mem_nil, or_false, List.map_eq_cons_iff,
    List.map_eq_nil_iff] at hcases
  obtain ⟨type, _, rfl, ht, name, _, rfl, hname, init, _, rfl, hi, rfl⟩ |
    ⟨name, _, rfl, hname, init, _, rfl, hi, rfl⟩ := hcases
  · obtain ⟨l, v, rfl, hlex⟩ := (hd type (by simp)).exists_leaf ht (by decide)
    obtain ⟨typeName, hv⟩ := hlex.text (.inl rfl)
    obtain rfl : v = some typeName := hv
    obtain ⟨l', v', rfl, hlex'⟩ := (hd name (by simp)).exists_leaf hname (by decide)
    obtain ⟨text, hv', -⟩ := hlex'.name rfl
    obtain rfl : v' = some text := hv'
    obtain ⟨indexed, e, hread, he⟩ := (ih init (by simp)).init hi
    simp (disch := decide) only [forestLeaves, leaves_terminal, forestSkeleton,
      skeleton_terminal, List.append_nil]
    exact ⟨_, .named (.some rfl) hread, Statement.variableMeans_typed he.1 ..,
      Statement.variableMeans_typed he.2 ..⟩
  · obtain ⟨l', v', rfl, hlex'⟩ := (hd name (by simp)).exists_leaf hname (by decide)
    obtain ⟨text, hv', -⟩ := hlex'.name rfl
    obtain rfl : v' = some text := hv'
    obtain ⟨indexed, e, hread, he⟩ := (ih init (by simp)).init hi
    simp (disch := decide) only [forestLeaves, leaves_terminal, forestSkeleton,
      skeleton_terminal, List.append_nil]
    exact ⟨_, .named .none hread, Statement.variableMeans_untyped he.1 ..,
      Statement.variableMeans_untyped he.2 ..⟩

theorem members_leaves (hp : children.map (·.symbol) ∈ expanded.productionsOf "StructBody") :
    Members (leaves expanded ⟨"StructBody", line, value, children⟩) := by
  have hn : expanded.isNonterminal "StructBody" = true := by decide
  have hcases : children.map (·.symbol) ∈ [["TYPE", "ID", "SEMI", "StructBody"], []] := hp
  rw [leaves_node hn]
  simp only [List.mem_cons, List.not_mem_nil, or_false, List.map_eq_cons_iff,
    List.map_eq_nil_iff] at hcases
  obtain ⟨type, _, rfl, ht, name, _, rfl, hname, semi, _, rfl, hs, rest, _, rfl, hr, rfl⟩ |
    rfl := hcases
  · have hhead : Spells ["TYPE", "ID", "SEMI"] _ :=
      ((hd type (by simp)).spells ht (by decide)).append
        (((hd name (by simp)).spells hname (by decide)).append
          ((hd semi (by simp)).spells hs (by decide)))
    have hmembers := Members.cons hhead ((ih rest (by simp)).members hr)
    simpa [forestLeaves] using hmembers
  · exact .nil

theorem exists_readsStart (hp : children.map (·.symbol) ∈ expanded.productionsOf "ForInit") :
    ∃ ps, Program.ReadsStart (leaves expanded ⟨"ForInit", line, value, children⟩) ps ∧
      Both (Statement.StartMeans ps) ⟨"ForInit", line, value, children⟩ := by
  have hn : expanded.isNonterminal "ForInit" = true := by decide
  have hcases : children.map (·.symbol) ∈ [["VariableDeclaration"], []] := hp
  simp only [Both, leaves_node hn, skeleton_node hn]
  simp only [List.mem_cons, List.not_mem_nil, or_false, List.map_eq_cons_iff,
    List.map_eq_nil_iff] at hcases
  obtain ⟨tree, _, rfl, ht, rfl⟩ | rfl := hcases
  · obtain ⟨p, hread, hp⟩ := (ih tree (by simp)).named ht
    refine ⟨[p], ?_, Statement.startMeans_variable hp.1 .., Statement.startMeans_variable hp.2 ..⟩
    simpa [forestLeaves] using Program.ReadsStart.some hread
  · exact ⟨[], .none, Statement.startMeans_nil .., Statement.startMeans_nil ..⟩

theorem exists_readsStep (hp : children.map (·.symbol) ∈ expanded.productionsOf "ForStep") :
    ∃ ps, Program.ReadsStep (leaves expanded ⟨"ForStep", line, value, children⟩) ps ∧
      Both (Statement.StepMeans ps) ⟨"ForStep", line, value, children⟩ := by
  have hn : expanded.isNonterminal "ForStep" = true := by decide
  have hcases : children.map (·.symbol) ∈ [["ID", "ASSIGNOP", "Expression"], []] := hp
  simp only [Both, leaves_node hn, skeleton_node hn]
  simp only [List.mem_cons, List.not_mem_nil, or_false, List.map_eq_cons_iff,
    List.map_eq_nil_iff] at hcases
  obtain ⟨name, _, rfl, hname, assign, _, rfl, ha, tree, _, rfl, ht, rfl⟩ | rfl := hcases
  · obtain ⟨l, v, rfl, hlex⟩ := (hd name (by simp)).exists_leaf hname (by decide)
    obtain ⟨text, hv, -⟩ := hlex.name rfl
    obtain rfl : v = some text := hv
    obtain ⟨l', v', rfl, -⟩ := (hd assign (by simp)).exists_leaf ha (by decide)
    obtain ⟨e, hread, he⟩ := exists_reads (hd tree (by simp)) ht
    simp (disch := decide) only [forestLeaves, leaves_terminal, forestSkeleton,
      skeleton_terminal, List.append_nil]
    exact ⟨_, .some rfl hread, Statement.stepMeans_store he.1 .., Statement.stepMeans_store he.2 ..⟩
  · exact ⟨[], .none, Statement.stepMeans_nil .., Statement.stepMeans_nil ..⟩

theorem exists_other (hp : children.map (·.symbol) ∈ expanded.productionsOf "ElsePart") :
    ∃ q, Both (Statement.ElseMeans q) ⟨"ElsePart", line, value, children⟩ ∧
      (leaves expanded ⟨"ElsePart", line, value, children⟩ = [] ∧ q = .skip ∨
        ∃ head ts last, leaves expanded ⟨"ElsePart", line, value, children⟩ = head ++ (ts ++ last) ∧
          Spells ["ELSE", "LC"] head ∧ Program.Reads ts q ∧ Spells ["RC"] last) := by
  have hn : expanded.isNonterminal "ElsePart" = true := by decide
  have hcases : children.map (·.symbol) ∈ [["ELSE", "LC", "Program", "RC"], []] := hp
  simp only [Both, leaves_node hn, skeleton_node hn]
  simp only [List.mem_cons, List.not_mem_nil, or_false, List.map_eq_cons_iff,
    List.map_eq_nil_iff] at hcases
  obtain ⟨key, _, rfl, hk, left, _, rfl, hl, body, _, rfl, hb, right, _, rfl, hr, rfl⟩ | rfl :=
    hcases
  · have hhead : Spells ["ELSE", "LC"] _ :=
      ((hd key (by simp)).spells hk (by decide)).append
        ((hd left (by simp)).spells hl (by decide))
    have hlast := (hd right (by simp)).spells hr (by decide)
    obtain ⟨q, hread, hq⟩ := (ih body (by simp)).program hb
    refine ⟨q, ⟨Statement.elseMeans_branch hq.1 .., ?_⟩, .inr ⟨_, _, _, ?_, hhead, hread, hlast⟩⟩
    · simp only [forestSkeleton]
      exact Statement.elseMeans_branch hq.2 ..
    · simp [forestLeaves]
  · exact ⟨.skip, ⟨Statement.elseMeans_nil .., Statement.elseMeans_nil ..⟩, .inl ⟨rfl, rfl⟩⟩

theorem exists_if (hp : children.map (·.symbol) ∈ expanded.productionsOf "IfStatement") :
    ∃ ps, Program.Precedes (leaves expanded ⟨"IfStatement", line, value, children⟩) ps ∧
      Both (Statement.PartMeans ps) ⟨"IfStatement", line, value, children⟩ := by
  have hn : expanded.isNonterminal "IfStatement" = true := by decide
  have hcases : children.map (·.symbol) =
    ["IF", "LP", "Expression", "RP", "LC", "Program", "RC", "ElsePart"] := List.mem_singleton.1 hp
  simp only [Both, leaves_node hn, skeleton_node hn]
  simp only [List.map_eq_cons_iff, List.map_eq_nil_iff] at hcases
  obtain ⟨key, _, rfl, hkey, left, _, rfl, hl, test, _, rfl, htest, right, _, rfl, hr,
    open', _, rfl, ho, body, _, rfl, hbody, close, _, rfl, hclose, other, _, rfl, hother, rfl⟩ :=
    hcases
  have hhead : Spells ["IF", "LP"] _ :=
    ((hd key (by simp)).spells hkey (by decide)).append
      ((hd left (by simp)).spells hl (by decide))
  have hmid : Spells ["RP", "LC"] _ :=
    ((hd right (by simp)).spells hr (by decide)).append
      ((hd open' (by simp)).spells ho (by decide))
  have htail := (hd close (by simp)).spells hclose (by decide)
  obtain ⟨c, hc, hmean⟩ := exists_reads (hd test (by simp)) htest
  obtain ⟨p, hp, hmean'⟩ := (ih body (by simp)).program hbody
  obtain ⟨q, hq, hcases⟩ := (ih other (by simp)).other hother
  refine ⟨[.branch c p q], fun rest r hrest => ?_, ?_, ?_⟩
  · rcases hcases with ⟨hnil, rfl⟩ | ⟨head, ts, last, hleaves, hhead', hread, hlast⟩
    · have hreads := Program.Reads.ifThen hhead hc hmid hp htail hrest
      simpa [forestLeaves, hnil] using hreads
    · have hreads := Program.Reads.ifElse hhead hc hmid hp (htail.append hhead') hread hlast hrest
      simpa [forestLeaves, hleaves] using hreads
  · exact Statement.partMeans_if hmean.1 hmean'.1 line value hq.1 ..
  · simp only [forestSkeleton]
    exact Statement.partMeans_if hmean.2 hmean'.2 0 none hq.2 ..

theorem exists_while (hp : children.map (·.symbol) ∈ expanded.productionsOf "WhileStatement") :
    ∃ ps, Program.Precedes (leaves expanded ⟨"WhileStatement", line, value, children⟩) ps ∧
      Both (Statement.PartMeans ps) ⟨"WhileStatement", line, value, children⟩ := by
  have hn : expanded.isNonterminal "WhileStatement" = true := by decide
  have hcases : children.map (·.symbol) =
    ["WHILE", "LP", "Expression", "RP", "LC", "Program", "RC"] := List.mem_singleton.1 hp
  simp only [Both, leaves_node hn, skeleton_node hn]
  simp only [List.map_eq_cons_iff, List.map_eq_nil_iff] at hcases
  obtain ⟨key, _, rfl, hkey, left, _, rfl, hl, test, _, rfl, htest, right, _, rfl, hr,
    open', _, rfl, ho, body, _, rfl, hbody, close, _, rfl, hclose, rfl⟩ := hcases
  have hhead : Spells ["WHILE", "LP"] _ :=
    ((hd key (by simp)).spells hkey (by decide)).append
      ((hd left (by simp)).spells hl (by decide))
  have hmid : Spells ["RP", "LC"] _ :=
    ((hd right (by simp)).spells hr (by decide)).append
      ((hd open' (by simp)).spells ho (by decide))
  have htail := (hd close (by simp)).spells hclose (by decide)
  obtain ⟨c, hc, hmean⟩ := exists_reads (hd test (by simp)) htest
  obtain ⟨p, hp, hmean'⟩ := (ih body (by simp)).program hbody
  refine ⟨[.while c p], fun rest r hrest => ?_, ?_, ?_⟩
  · have hreads := Program.Reads.whileLoop hhead hc hmid hp htail hrest
    simpa [forestLeaves] using hreads
  · exact Statement.partMeans_while hmean.1 hmean'.1 line value ..
  · simp only [forestSkeleton]
    exact Statement.partMeans_while hmean.2 hmean'.2 0 none ..

theorem exists_doWhile
    (hp : children.map (·.symbol) ∈ expanded.productionsOf "DoWhileStatement") :
    ∃ ps, Program.PrecedesSemi (leaves expanded ⟨"DoWhileStatement", line, value, children⟩) ps ∧
      Both (Statement.PartMeans ps) ⟨"DoWhileStatement", line, value, children⟩ := by
  have hn : expanded.isNonterminal "DoWhileStatement" = true := by decide
  have hcases : children.map (·.symbol) =
    ["DO", "LC", "Program", "RC", "WHILE", "LP", "Expression", "RP"] := List.mem_singleton.1 hp
  simp only [Both, leaves_node hn, skeleton_node hn]
  simp only [List.map_eq_cons_iff, List.map_eq_nil_iff] at hcases
  obtain ⟨key, _, rfl, hkey, open', _, rfl, ho, body, _, rfl, hbody, close, _, rfl, hclose,
    key', _, rfl, hkey', left, _, rfl, hl, test, _, rfl, htest, right, _, rfl, hr, rfl⟩ := hcases
  have hhead : Spells ["DO", "LC"] _ :=
    ((hd key (by simp)).spells hkey (by decide)).append
      ((hd open' (by simp)).spells ho (by decide))
  have hmid : Spells ["RC", "WHILE", "LP"] _ :=
    ((hd close (by simp)).spells hclose (by decide)).append
      (((hd key' (by simp)).spells hkey' (by decide)).append
        ((hd left (by simp)).spells hl (by decide)))
  have htail := (hd right (by simp)).spells hr (by decide)
  obtain ⟨c, hc, hmean⟩ := exists_reads (hd test (by simp)) htest
  obtain ⟨p, hp, hmean'⟩ := (ih body (by simp)).program hbody
  refine ⟨[.doWhile p c], fun semi hsemi rest r hrest => ?_, ?_, ?_⟩
  · have hreads := Program.Reads.doWhile hhead hp hmid hc (htail.append hsemi) hrest
    simpa [forestLeaves] using hreads
  · exact Statement.partMeans_doWhile hmean.1 hmean'.1 line value ..
  · simp only [forestSkeleton]
    exact Statement.partMeans_doWhile hmean.2 hmean'.2 0 none ..

theorem exists_for (hp : children.map (·.symbol) ∈ expanded.productionsOf "ForStatement") :
    ∃ ps, Program.Precedes (leaves expanded ⟨"ForStatement", line, value, children⟩) ps ∧
      Both (Statement.PartMeans ps) ⟨"ForStatement", line, value, children⟩ := by
  have hn : expanded.isNonterminal "ForStatement" = true := by decide
  have hcases : children.map (·.symbol) =
    ["FOR", "LP", "ForInit", "SEMI", "Expression", "SEMI", "ForStep", "RP", "LC", "Program",
      "RC"] := List.mem_singleton.1 hp
  simp only [Both, leaves_node hn, skeleton_node hn]
  simp only [List.map_eq_cons_iff, List.map_eq_nil_iff] at hcases
  obtain ⟨key, _, rfl, hkey, left, _, rfl, hl, start, _, rfl, hstart, semi, _, rfl, hsemi,
    test, _, rfl, htest, semi', _, rfl, hsemi', step, _, rfl, hstep, right, _, rfl, hr,
    open', _, rfl, ho, body, _, rfl, hbody, close, _, rfl, hclose, rfl⟩ := hcases
  have hhead : Spells ["FOR", "LP"] _ :=
    ((hd key (by simp)).spells hkey (by decide)).append
      ((hd left (by simp)).spells hl (by decide))
  have hmid : Spells ["RP", "LC"] _ :=
    ((hd right (by simp)).spells hr (by decide)).append
      ((hd open' (by simp)).spells ho (by decide))
  have hs := (hd semi (by simp)).spells hsemi (by decide)
  have hs' := (hd semi' (by simp)).spells hsemi' (by decide)
  have htail := (hd close (by simp)).spells hclose (by decide)
  obtain ⟨ps, hps, hstarts⟩ := (ih start (by simp)).start hstart
  obtain ⟨c, hc, hmean⟩ := exists_reads (hd test (by simp)) htest
  obtain ⟨qs, hqs, hsteps⟩ := (ih step (by simp)).step hstep
  obtain ⟨p, hp, hmean'⟩ := (ih body (by simp)).program hbody
  refine ⟨ps ++ [.while c (qs.foldl .seq p)], fun rest r hrest => ?_, ?_, ?_⟩
  · have hreads := Program.Reads.forLoop hhead hps hs hc hs' hqs hmid hp htail hrest
    simpa [forestLeaves] using hreads
  · exact Statement.partMeans_for hmean.1 hmean'.1 line value hstarts.1 hsteps.1 ..
  · simp only [forestSkeleton]
    exact Statement.partMeans_for hmean.2 hmean'.2 0 none hstarts.2 hsteps.2 ..

theorem exists_struct
    (hp : children.map (·.symbol) ∈ expanded.productionsOf "StructDeclaration") :
    ∃ ps, Program.PrecedesSemi (leaves expanded ⟨"StructDeclaration", line, value, children⟩) ps ∧
      Both (Statement.PartMeans ps) ⟨"StructDeclaration", line, value, children⟩ := by
  have hn : expanded.isNonterminal "StructDeclaration" = true := by decide
  have hcases : children.map (·.symbol) = ["STRUCT", "ID", "LC", "StructBody", "RC"] :=
    List.mem_singleton.1 hp
  simp only [Both, leaves_node hn, skeleton_node hn]
  simp only [List.map_eq_cons_iff, List.map_eq_nil_iff] at hcases
  obtain ⟨key, _, rfl, hkey, name, _, rfl, hname, open', _, rfl, ho, body, _, rfl, hbody,
    close, _, rfl, hclose, rfl⟩ := hcases
  have hhead : Spells ["STRUCT", "ID", "LC"] _ :=
    ((hd key (by simp)).spells hkey (by decide)).append
      (((hd name (by simp)).spells hname (by decide)).append
        ((hd open' (by simp)).spells ho (by decide)))
  have htail := (hd close (by simp)).spells hclose (by decide)
  have hmembers := (ih body (by simp)).members hbody
  obtain ⟨l, v, hleaf, hlex⟩ := (hd name (by simp)).exists_leaf hname (by decide)
  obtain ⟨text, hv, -⟩ := hlex.name rfl
  obtain rfl : v = some text := hv
  refine ⟨[.skip], fun semi hsemi rest r hrest => ?_, ?_, ?_⟩
  · have hreads := Program.Reads.struct hhead hmembers (htail.append hsemi) hrest
    simpa [forestLeaves] using hreads
  · rw [hleaf]
    exact Statement.partMeans_struct ..
  · simp only [forestSkeleton]
    rw [hleaf, skeleton_terminal (by decide)]
    exact Statement.partMeans_struct ..

theorem exists_program (hp : children.map (·.symbol) ∈ expanded.productionsOf "Program") :
    ∃ p, Program.Reads (leaves expanded ⟨"Program", line, value, children⟩) p ∧
      Both (Statement.ProgramMeans p) ⟨"Program", line, value, children⟩ := by
  have hn : expanded.isNonterminal "Program" = true := by decide
  have hcases : children.map (·.symbol) = [] ∨
      (∃ part ∈ ["IfStatement", "WhileStatement", "ForStatement"],
        children.map (·.symbol) = [part, "Program"]) ∨
      ∃ part ∈ ["VariableDeclaration", "StructDeclaration", "DoWhileStatement"],
        children.map (·.symbol) = [part, "SEMI", "Program"] := by
    have hps : ∀ ps ∈ expanded.productionsOf "Program", ps = [] ∨
        (∃ part ∈ ["IfStatement", "WhileStatement", "ForStatement"], ps = [part, "Program"]) ∨
        ∃ part ∈ ["VariableDeclaration", "StructDeclaration", "DoWhileStatement"],
          ps = [part, "SEMI", "Program"] := by decide
    exact hps _ hp
  simp only [Both, leaves_node hn, skeleton_node hn]
  rcases hcases with hs | ⟨name, hm, hs⟩ | ⟨name, hm, hs⟩
  · obtain rfl := List.map_eq_nil_iff.1 hs
    exact ⟨.skip, .nil, Statement.programMeans_nil .., Statement.programMeans_nil ..⟩
  · have hne : name ≠ "Program" := by
      rintro rfl
      simp at hm
    obtain ⟨part, _, rfl, hpart, hs⟩ := List.map_eq_cons_iff.1 hs
    obtain ⟨rest, _, rfl, hrest, hs⟩ := List.map_eq_cons_iff.1 hs
    obtain rfl := List.map_eq_nil_iff.1 hs
    obtain ⟨ps, hread, hps⟩ := (ih part (by simp)).part (hpart ▸ hm)
    obtain ⟨q, hq, hmean⟩ := (ih rest (by simp)).program hrest
    refine ⟨ps.foldr .seq q, by simpa [forestLeaves] using hread _ q hq, ?_, ?_⟩
    · exact Statement.programMeans_part hps.1 (hpart ▸ hne) hmean.1 hrest ..
    · simp only [forestSkeleton]
      exact Statement.programMeans_part hps.2 (by rwa [symbol_skeleton, hpart]) hmean.2
        (by rwa [symbol_skeleton]) ..
  · have hne : name ≠ "Program" := by
      rintro rfl
      simp at hm
    obtain ⟨part, _, rfl, hpart, hs⟩ := List.map_eq_cons_iff.1 hs
    obtain ⟨semi, _, rfl, hsemi, hs⟩ := List.map_eq_cons_iff.1 hs
    obtain ⟨rest, _, rfl, hrest, hs⟩ := List.map_eq_cons_iff.1 hs
    obtain rfl := List.map_eq_nil_iff.1 hs
    have hspells := (hd semi (by simp)).spells hsemi (by decide)
    obtain ⟨l, v, rfl, -⟩ := (hd semi (by simp)).exists_leaf hsemi (by decide)
    obtain ⟨ps, hread, hps⟩ := (ih part (by simp)).partSemi (hpart ▸ hm)
    obtain ⟨q, hq, hmean⟩ := (ih rest (by simp)).program hrest
    refine ⟨ps.foldr .seq q, by simpa [forestLeaves] using hread _ hspells _ q hq, ?_, ?_⟩
    · exact Statement.programMeans_semi hps.1 (hpart ▸ hne) hmean.1 hrest ..
    · simp (disch := decide) only [forestSkeleton, skeleton_terminal]
      exact Statement.programMeans_semi hps.2 (by rwa [symbol_skeleton, hpart]) hmean.2
        (by rwa [symbol_skeleton]) ..

/-- A declaration or an assignment as a statement. -/
theorem exists_part_variable
    (hp : children.map (·.symbol) ∈ expanded.productionsOf "VariableDeclaration") :
    ∃ ps, Program.PrecedesSemi
        (leaves expanded ⟨"VariableDeclaration", line, value, children⟩) ps ∧
      Both (Statement.PartMeans ps) ⟨"VariableDeclaration", line, value, children⟩ := by
  obtain ⟨p, hread, hmean⟩ := exists_readsVariable hd ih line value hp
  refine ⟨[p], fun semi hsemi rest r hrest => ?_, Statement.partMeans_variable hmean.1, ?_⟩
  · rw [List.append_assoc]
    exact .named hread hsemi hrest
  · have hmean' := hmean.2
    have hn : expanded.isNonterminal "VariableDeclaration" = true := by decide
    rw [skeleton_node hn] at hmean' ⊢
    exact Statement.partMeans_variable hmean'

end

theorem statementRead_of_isRegular {tree : Tree} (h : tree.IsRegular) : tree.StatementRead := by
  have hd := h.derivation
  induction hd with
  | @leaf symbol line value hn =>
    have hne : ∀ name, expanded.isNonterminal name = true → symbol ≠ name := by
      rintro name hs rfl
      rw [hs] at hn
      exact absurd hn (by simp)
    have hmem : ∀ names : List Symbol, (∀ name ∈ names, expanded.isNonterminal name = true) →
        symbol ∉ names := fun names hall hm => hne symbol (hall symbol hm) rfl
    exact
      { init := fun hs => absurd hs (hne _ (by decide))
        named := fun hs => absurd hs (hne _ (by decide))
        members := fun hs => absurd hs (hne _ (by decide))
        start := fun hs => absurd hs (hne _ (by decide))
        step := fun hs => absurd hs (hne _ (by decide))
        other := fun hs => absurd hs (hne _ (by decide))
        part := fun hs => absurd hs (hmem _ (by decide))
        partSemi := fun hs => absurd hs (hmem _ (by decide))
        program := fun hs => absurd hs (hne _ (by decide)) }
  | @node rule line value children hr hs hc ih =>
    have hchild : ∀ child ∈ children, child.IsRegular :=
      fun child hm => h.child (Grammar.isNonterminal_left hr) hm
    have hread : ∀ child ∈ children, child.StatementRead :=
      fun child hm => ih child hm (hchild child hm)
    have hp := Grammar.production_mem hr
    rw [← hs] at hp
    obtain ⟨left, right⟩ := rule
    refine ⟨?_, ?_, ?_, ?_, ?_, ?_, fun hm => ?_, fun hm => ?_, ?_⟩
    · rintro rfl
      exact exists_readsInit hchild hread line value hp
    · rintro rfl
      exact exists_readsVariable hchild hread line value hp
    · rintro rfl
      exact members_leaves hchild hread line value hp
    · rintro rfl
      exact exists_readsStart hchild hread line value hp
    · rintro rfl
      exact exists_readsStep hchild hread line value hp
    · rintro rfl
      exact exists_other hchild hread line value hp
    · simp only [List.mem_cons, List.not_mem_nil, or_false] at hm
      rcases hm with rfl | rfl | rfl
      · exact exists_if hchild hread line value hp
      · exact exists_while hchild hread line value hp
      · exact exists_for hchild hread line value hp
    · simp only [List.mem_cons, List.not_mem_nil, or_false] at hm
      rcases hm with rfl | rfl | rfl
      · exact exists_part_variable hchild hread line value hp
      · exact exists_struct hchild hread line value hp
      · exact exists_doWhile hchild hread line value hp
    · rintro rfl
      exact exists_program hchild hread line value hp

end Tree
end FrontEnd
