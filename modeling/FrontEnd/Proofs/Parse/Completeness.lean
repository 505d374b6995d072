import FrontEnd.Proofs.Grammar.Unambiguous
import FrontEnd.Proofs.Parse.Soundness

/-! # Grammars without conflicts parse all their words

A run follows a derivation of the input: at a nonterminal the table gives the rule that the
derivation uses there. The cycle check lets it through, because a symbol that is opened again with
no input in between would have two derivations that start the same text, a larger and a smaller one.

* `Path.Surrounds`: the nodes opened at this position all have larger derivations.
* `Path.reopens_eq_false`: so none of them carries the symbol of the focus.
* `Tree.IsParsed`: the parser rebuilds a derivation and uses up its word.
* `Tree.isParsed_of_isDerivation`: it does so with every derivation.
* `parse_of_derivation`: the parse of a word of the grammar.
-/

namespace FrontEnd
set_option autoImplicit false

/-! ## The cycle check -/

/-- The nodes opened at `position` start derivations of `text` with more than `size` nodes. -/
def Path.Surrounds (g : Grammar) (path : Path) (position : Nat) (text : List Symbol)
    (size : Nat) : Prop :=
  ∀ node ∈ path.takeWhile (·.openedAt == position), ∃ outer : Tree, ∃ rest,
    outer.IsDerivation g ∧ outer.symbol = node.symbol ∧ outer.word g ++ rest = text ∧
      g.Follows node.symbol rest ∧ size < outer.count

theorem Path.reopens_eq_false {g : Grammar} (hc : g.table.conflicts = [])
    (hε : g.isNonterminal epsilon = false) {path : Path} {position : Nat} {tree : Tree}
    (ht : tree.IsDerivation g) {rest : List Symbol} (hf : g.Follows tree.symbol rest)
    (hs : path.Surrounds g position (tree.word g ++ rest) tree.count) :
    path.reopens tree.symbol position = false := by
  rw [reopens, List.any_eq_false]
  intro node hn he
  obtain ⟨outer, rest', ho, hsymbol, hword, hf', hsize⟩ := hs node hn
  have heq : tree.symbol = node.symbol := (eq_of_beq he).symm
  have houtline : tree.outline = outer.outline :=
    ht.isDetermined hc hε outer ho (heq.trans hsymbol.symm) rest rest' hword.symm
      fun _ => ⟨hf, heq ▸ hf'⟩
  rw [← Tree.count_outline tree, houtline, Tree.count_outline] at hsize
  exact Nat.lt_irrefl _ hsize

theorem Path.surrounds_open {g : Grammar} {path : Path} {node : OpenNode} {outer : Tree}
    (ho : outer.IsDerivation g) (hn : node.symbol = outer.symbol) {rest : List Symbol}
    (hf : g.Follows outer.symbol rest)
    (hs : path.Surrounds g node.openedAt (outer.word g ++ rest) outer.count) {size : Nat}
    (hlt : size < outer.count) :
    Surrounds g (node :: path) node.openedAt (outer.word g ++ rest) size := by
  intro other hm
  rw [List.takeWhile_cons, if_pos (by simp)] at hm
  rcases List.mem_cons.1 hm with rfl | hm
  · exact ⟨outer, rest, ho, hn.symm, rfl, hn ▸ hf, hlt⟩
  · obtain ⟨tree, rest', h1, h2, h3, h4, h5⟩ := hs other hm
    exact ⟨tree, rest', h1, h2, h3, h4, Nat.lt_trans hlt h5⟩

/-- Once a terminal is used, no opened node counts any more. -/
theorem Path.surrounds_later {g : Grammar} {path : Path} {node : OpenNode} {position : Nat}
    (hp : node.openedAt ≠ position) (text : List Symbol) (size : Nat) :
    Surrounds g (node :: path) position text size := by
  intro other hm
  rw [List.takeWhile_cons, if_neg (by simpa using hp)] at hm
  simp at hm

/-! ## Following a derivation -/

namespace Tree
variable {g : PreparedGrammar}

/-- From a focus on the root symbol the parser uses up the word of the tree and puts a tree of the
same outline in place, with the terminals it has used as leaves. -/
def IsParsed (g : PreparedGrammar) (tree : Tree) : Prop :=
  ∀ (path : Path) (position : Nat) (errors : List SyntaxError) (used rest : List Terminal),
    used.map (·.symbol) = tree.word g.normalized → rest ≠ [] →
    (g.normalized.isNonterminal tree.symbol = true →
      g.normalized.Follows tree.symbol (rest.map (·.symbol))) →
    path.Surrounds g.normalized position ((used ++ rest).map (·.symbol)) tree.count →
    ∃ built n, built.outline = tree.outline ∧ built.leaves g.normalized = used ∧
      ParseState.Runs g n ⟨.focused path tree.symbol, used ++ rest, position, errors⟩
        ⟨.fill built path, rest, position + used.length, errors⟩

theorem isParsed_leaf {symbol : Symbol} (hn : g.normalized.isNonterminal symbol = false)
    (line : Nat) (value : Option String) : IsParsed g ⟨symbol, line, value, []⟩ := by
  intro path position errors used rest hw hrest _ _
  by_cases he : symbol = epsilon
  · subst he
    rw [word, leaves_of_not_terminal isTerminal_epsilon] at hw
    obtain rfl : used = [] := List.map_eq_nil_iff.1 hw
    obtain ⟨next, rest, rfl⟩ := List.exists_cons_of_ne_nil hrest
    refine ⟨⟨epsilon, next.line, none, []⟩, 1, rfl, ?_, ?_⟩
    · exact leaves_of_not_terminal isTerminal_epsilon ..
    refine .step ?_ (.refl _)
    rw [ParseState.step?_of_focused rfl rfl, Action.choose_vanish hn]
    rfl
  · have ht : g.normalized.isTerminal symbol = true := by simp [Grammar.isTerminal, he, hn]
    rw [word, leaves_terminal ht] at hw
    obtain ⟨leaf, _, rfl, hs, hnil⟩ := List.map_eq_cons_iff.1 hw
    obtain rfl := List.map_eq_nil_iff.1 hnil
    obtain rfl : leaf.symbol = symbol := hs
    refine ⟨⟨leaf.symbol, leaf.line, leaf.value, []⟩, 1, rfl, leaves_terminal ht .., ?_⟩
    refine .step ?_ (.refl _)
    rw [ParseState.step?_of_focused rfl rfl, Action.choose_accept hn he]
    rfl

/-- The remaining children of an opened node, one after the other. -/
theorem runs_forest (hε : g.normalized.isNonterminal epsilon = false) {rule : Rule}
    (hr : rule ∈ g.normalized.rules) (tree : Tree) (trees : List Tree) (before : List Symbol)
    (hp : before ++ tree.symbol :: trees.map (·.symbol) = rule.production)
    (hd : ∀ child ∈ tree :: trees, child.IsDerivation g.normalized)
    (hc : ∀ child ∈ tree :: trees, child.IsParsed g) (path : Path) (node : OpenNode)
    (hwaiting : node.waiting = trees.map (·.symbol)) (position : Nat)
    (errors : List SyntaxError) (used : List Terminal) {rest : List Terminal}
    (hw : used.map (·.symbol) = forestWord g.normalized (tree :: trees)) (hrest : rest ≠ [])
    (hf : g.normalized.Follows rule.left (rest.map (·.symbol)))
    (hs : ∀ child ∈ tree :: trees, ∀ done waiting first second, used = first ++ second →
      Path.Surrounds g.normalized ({ node with done, waiting } :: path)
        (position + first.length) ((second ++ rest).map (·.symbol)) child.count) :
    ∃ built n, forestOutline built = forestOutline (tree :: trees) ∧
      forestLeaves g.normalized built = used ∧
      ParseState.Runs g n
        ⟨.focused (node :: path) tree.symbol, used ++ rest, position, errors⟩
        ⟨.fill (node.close built) path, rest, position + used.length, errors⟩ := by
  induction trees generalizing tree before node position used with
  | nil =>
    rw [forestWord_cons, forestWord_nil, List.append_nil] at hw
    have hfollows : g.normalized.isNonterminal tree.symbol = true →
        g.normalized.Follows tree.symbol (rest.map (·.symbol)) := fun hn =>
      g.normalized.follows_child hε hr hp (fun _ hm => absurd hm (List.not_mem_nil)) hf hn
    obtain ⟨built, n, ho, hl, hrun⟩ := hc tree (by simp) (node :: path) position errors used rest
      hw hrest hfollows (hs tree (by simp) node.done node.waiting [] used rfl)
    refine ⟨[built], n, by rw [forestOutline, ho]; rfl,
      by rw [forestLeaves, forestLeaves, List.append_nil, hl], ?_⟩
    rw [PartialTree.fill, hwaiting] at hrun
    exact hrun
  | cons next trees ih =>
    rw [forestWord_cons] at hw
    obtain ⟨first, second, rfl, hfirst, hsecond⟩ := List.map_eq_append_iff.1 hw
    have hd' : ∀ child ∈ next :: trees, child.IsDerivation g.normalized :=
      fun child hm => hd child (List.mem_cons_of_mem tree hm)
    have hfollows : g.normalized.isNonterminal tree.symbol = true →
        g.normalized.Follows tree.symbol ((second ++ rest).map (·.symbol)) := by
      intro hn
      rw [List.map_append, hsecond]
      exact g.normalized.follows_child hε hr hp hd' hf hn
    have hnow := hs tree (by simp) node.done node.waiting [] (first ++ second) rfl
    rw [List.append_assoc] at hnow
    obtain ⟨built, n, ho, hl, hrun⟩ := hc tree (by simp) (node :: path) position errors first
      (second ++ rest) hfirst (by simp [hrest]) hfollows hnow
    rw [PartialTree.fill, hwaiting] at hrun
    have hlater : ∀ child ∈ next :: trees, ∀ done waiting u v, second = u ++ v →
        Path.Surrounds g.normalized ({ node with done, waiting } :: path)
          (position + first.length + u.length) ((v ++ rest).map (·.symbol)) child.count := by
      intro child hm done waiting u v huv
      rw [Nat.add_assoc, ← List.length_append]
      exact hs child (List.mem_cons_of_mem tree hm) done waiting (first ++ u) v
        (by rw [huv, List.append_assoc])
    obtain ⟨others, m, ho', hl', hrun'⟩ := ih next (before ++ [tree.symbol])
      (by rw [List.append_assoc]; exact hp) hd'
      (fun child hm => hc child (List.mem_cons_of_mem tree hm))
      { node with done := node.done ++ [built], waiting := trees.map (·.symbol) } rfl
      (position + first.length) second hsecond hlater
    refine ⟨built :: others, n + m, by rw [forestOutline, forestOutline, ho, ho'],
      by rw [forestLeaves, hl, hl'], ?_⟩
    have hclose : OpenNode.close
        { node with done := node.done ++ [built], waiting := trees.map (·.symbol) } others =
        node.close (built :: others) := by
      simp [OpenNode.close]
    rw [hclose, Nat.add_assoc, ← List.length_append] at hrun'
    rw [List.append_assoc]
    exact hrun.trans hrun'

section
variable {rule : Rule} {line : Nat} {value : Option String} {children : List Tree}
  (hr : rule ∈ g.normalized.rules) (hp : children.map (·.symbol) = rule.production)
  (hd : ∀ child ∈ children, child.IsDerivation g.normalized) {path : Path} {position : Nat}
  {used rest : List Terminal}
  (hw : used.map (·.symbol) = word g.normalized ⟨rule.left, line, value, children⟩)
  (hf : g.normalized.Follows rule.left (rest.map (·.symbol)))
  (hs : path.Surrounds g.normalized position ((used ++ rest).map (·.symbol))
    (count ⟨rule.left, line, value, children⟩))
include hr hp hd hw hf hs

/-- The parser takes the rule that the derivation takes. -/
theorem exists_step?_expand (hg : g.table = g.normalized.table)
    (hconflicts : g.table.conflicts = []) (hε : g.normalized.isNonterminal epsilon = false)
    (hrest : rest ≠ []) (errors : List SyntaxError) :
    ∃ next : Terminal,
      ParseState.step? g ⟨.focused path rule.left, used ++ rest, position, errors⟩ =
        some ⟨.expand path rule.left next.line position rule.production, used ++ rest, position,
          errors⟩ := by
  have hn := Grammar.isNonterminal_left hr
  have hword : word g.normalized ⟨rule.left, line, value, children⟩ =
      forestWord g.normalized children := by
    rw [word, leaves_of_not_terminal (isTerminal_of_isNonterminal hn)]
    rfl
  -- The next terminal is one that the rule selects.
  obtain ⟨t, ht, hselect⟩ := g.normalized.exists_head_mem_select hε hp hd hf
  rw [← hword, ← hw, ← List.map_append] at ht
  obtain ⟨next, input, hinput⟩ : ∃ next input, used ++ rest = next :: input :=
    List.exists_cons_of_ne_nil (by simp [hrest])
  rw [hinput] at ht
  obtain rfl : next.symbol = t := Option.some.inj ht
  obtain ⟨index, hindex⟩ := List.getElem?_of_mem hr
  have hcell : g.table.cell? rule.left next.symbol = some (.expand index) := by
    rw [hg] at hconflicts ⊢
    exact Grammar.cell?_of_mem_select hconflicts hindex hselect
  have hopen : path.reopens rule.left position = false := by
    rw [List.map_append, hw] at hs
    exact Path.reopens_eq_false (hg ▸ hconflicts) hε (.node line value hr hp hd) hf hs
  refine ⟨next, ?_⟩
  rw [ParseState.step?_of_focused rfl hinput, Action.choose_expand hn hcell hopen,
    ParseState.apply, Grammar.production_of_getElem? hindex]

/-- The node itself surrounds its children until a terminal is used. -/
theorem surrounds_children {child : Tree} (hm : child ∈ children) (opened : Nat)
    (done : List Tree) (waiting : List Symbol) {u v : List Terminal} (huv : used = u ++ v) :
    Path.Surrounds g.normalized (⟨rule.left, opened, position, done, waiting⟩ :: path)
      (position + u.length) ((v ++ rest).map (·.symbol)) child.count := by
  have hsize : child.count < count ⟨rule.left, line, value, children⟩ := count_lt_of_mem hm
  cases u with
  | nil =>
    obtain rfl : used = v := huv
    rw [List.map_append, hw] at hs ⊢
    exact Path.surrounds_open (.node line value hr hp hd) rfl hf hs hsize
  | cons x u =>
    refine Path.surrounds_later ?_ _ _
    rw [List.length_cons]
    show position ≠ position + (u.length + 1)
    omega

end

theorem isParsed_node (hg : g.table = g.normalized.table) (hconflicts : g.table.conflicts = [])
    (hε : g.normalized.isNonterminal epsilon = false) {rule : Rule} {line : Nat}
    {value : Option String} {children : List Tree} (hr : rule ∈ g.normalized.rules)
    (hp : children.map (·.symbol) = rule.production)
    (hd : ∀ child ∈ children, child.IsDerivation g.normalized)
    (hc : ∀ child ∈ children, child.IsParsed g) :
    IsParsed g ⟨rule.left, line, value, children⟩ := by
  intro path position errors used rest hw hrest hf hs
  have ht := isTerminal_of_isNonterminal (Grammar.isNonterminal_left hr)
  have hf := hf (Grammar.isNonterminal_left hr)
  obtain ⟨next, hstep⟩ := exists_step?_expand hr hp hd hw hf hs hg hconflicts hε hrest errors
  have hword : used.map (·.symbol) = forestWord g.normalized children := by
    rw [hw, word, leaves_of_not_terminal ht]
    rfl
  cases children with
  | nil =>
    obtain rfl : used = [] := List.map_eq_nil_iff.1 hword
    refine ⟨.bare rule.left next.line, 1, rfl, leaves_of_not_terminal ht .., .step hstep ?_⟩
    rw [← hp]
    exact .refl _
  | cons first others =>
    obtain ⟨built, n, ho, hl, hrun⟩ := runs_forest hε hr first others [] hp hd hc path
      ⟨rule.left, next.line, position, [], others.map (·.symbol)⟩ rfl position errors used
      hword hrest hf fun child hm done waiting u v huv =>
        surrounds_children hr hp hd hw hf hs hm next.line done waiting huv
    refine ⟨⟨rule.left, next.line, none, built⟩, n + 1, ?_, ?_, .step hstep ?_⟩
    · rw [outline, outline, ho]
    · rw [leaves_of_not_terminal ht, hl]
    · rw [← hp]
      exact hrun

theorem isParsed_of_isDerivation (hg : g.table = g.normalized.table)
    (hconflicts : g.table.conflicts = []) (hε : g.normalized.isNonterminal epsilon = false)
    {tree : Tree} (ht : tree.IsDerivation g.normalized) : tree.IsParsed g := by
  induction ht with
  | leaf line value hn => exact isParsed_leaf hn line value
  | node line value hr hp hd ih => exact isParsed_node hg hconflicts hε hr hp hd ih

end Tree

/-! ## Completeness -/

/-- The parse of the word of a derivation from the start symbol ends with this derivation, and only
the end marker is left. -/
theorem ParseState.exists_run_eq {g : PreparedGrammar} (hg : g.table = g.normalized.table)
    (hconflicts : g.table.conflicts = []) (hε : g.normalized.isNonterminal epsilon = false)
    {tree : Tree} (ht : tree.IsDerivation g.normalized) (hstart : tree.symbol = g.normalized.start)
    {terminals : List Terminal} (hw : terminals.map (·.symbol) = tree.word g.normalized) :
    ∃ built last, built.outline = tree.outline ∧ built.leaves g.normalized = terminals ∧
      (ofTerminals g terminals).run g = ⟨.complete built, [last], terminals.length, []⟩ := by
  have hend : g.normalized.Follows tree.symbol [endMarker] :=
    ⟨endMarker, rfl, hstart ▸ g.normalized.endMarker_mem_followSets⟩
  obtain ⟨last, hinput, hlast⟩ : ∃ last : Terminal,
      (ofTerminals g terminals).input = terminals ++ [last] ∧ last.symbol = endMarker :=
    ⟨_, rfl, rfl⟩
  obtain ⟨built, n, houtline, hleaves, hrun⟩ :=
    Tree.isParsed_of_isDerivation hg hconflicts hε ht [] 0 [] terminals [last] hw (by simp)
      (fun _ => by rwa [List.map_singleton, hlast]) (fun node hm => by simp at hm)
  have hinit : ofTerminals g terminals = ⟨.focused [] tree.symbol, terminals ++ [last], 0, []⟩ := by
    rw [← hinput, hstart]
    rfl
  refine ⟨built, last, houtline, hleaves, ?_⟩
  rw [hinit, hrun.run_eq, Nat.zero_add]
  exact run_of_final rfl

/-- Without conflicts, a text that is the word of a derivation from the start symbol is parsed
without errors to the tree of this derivation, with the terminals themselves as its leaves. There
is no other derivation of the word. -/
theorem parse_of_derivation (source : Grammar)
    (hconflicts : (PreparedGrammar.ofGrammar source).table.conflicts = [])
    (hε : ∀ rule ∈ (PreparedGrammar.ofGrammar source).normalized.rules, rule.left ≠ epsilon)
    {tree : Tree} (ht : tree.IsDerivation (PreparedGrammar.ofGrammar source).normalized)
    (hstart : tree.symbol = (PreparedGrammar.ofGrammar source).normalized.start)
    {terminals : List Terminal}
    (hw : terminals.map (·.symbol) = tree.word (PreparedGrammar.ofGrammar source).normalized) :
    (parse (.ofGrammar source) terminals).complete = true ∧
      (parse (.ofGrammar source) terminals).errors = [] ∧
      (parse (.ofGrammar source) terminals).tree.outline = tree.outline ∧
      (parse (.ofGrammar source) terminals).tree.leaves
        (PreparedGrammar.ofGrammar source).normalized = terminals ∧
      ∀ other : Tree, other.IsDerivation (PreparedGrammar.ofGrammar source).normalized →
        other.symbol = tree.symbol →
        other.word (PreparedGrammar.ofGrammar source).normalized =
          tree.word (PreparedGrammar.ofGrammar source).normalized →
        other.outline = tree.outline := by
  have hg : (PreparedGrammar.ofGrammar source).table =
      (PreparedGrammar.ofGrammar source).normalized.table := rfl
  generalize PreparedGrammar.ofGrammar source = g at *
  have hε' := Grammar.isNonterminal_eq_false_iff.2 hε
  obtain ⟨built, last, houtline, hleaves, hfinal⟩ :=
    ParseState.exists_run_eq hg hconflicts hε' ht hstart hw
  unfold parse
  rw [hfinal]
  refine ⟨by simp, rfl, houtline, hleaves, ?_⟩
  intro other ho hsymbol hword
  exact ht.outline_eq_of_word_eq (hg ▸ hconflicts) hε' ho hstart hsymbol hword

/-- The derivation of `x + x` once left recursion is gone. -/
def Tree.twoTerms : Tree :=
  ⟨"Sum", 0, none, [.bare "x" 0, ⟨"Sum'", 0, none,
    [.bare "+" 0, .bare "x" 0, .bare "Sum'" 0]⟩]⟩

theorem Tree.isDerivation_twoTerms :
    Tree.twoTerms.IsDerivation (PreparedGrammar.ofGrammar .sums).normalized := by
  have hrule : ∀ rule ∈ [⟨"Sum", ["x", "Sum'"]⟩, ⟨"Sum'", ["+", "x", "Sum'"]⟩,
      ⟨"Sum'", [epsilon]⟩], rule ∈ (PreparedGrammar.ofGrammar .sums).normalized.rules := by
    rw [rules_normalized_sums]
    exact fun rule h => h
  have hleaf : ∀ symbol ∈ ["x", "+"],
      (Tree.bare symbol 0).IsDerivation (PreparedGrammar.ofGrammar .sums).normalized := by
    intro symbol hs
    refine .leaf 0 none ?_
    rw [Grammar.isNonterminal, rules_normalized_sums]
    revert symbol
    decide
  have hlast : (Tree.bare "Sum'" 0).IsDerivation (PreparedGrammar.ofGrammar .sums).normalized :=
    .node 0 none (hrule ⟨"Sum'", [epsilon]⟩ (by decide)) rfl (by simp)
  have htail : Tree.IsDerivation (PreparedGrammar.ofGrammar .sums).normalized
      ⟨"Sum'", 0, none, [.bare "+" 0, .bare "x" 0, .bare "Sum'" 0]⟩ := by
    refine .node 0 none (hrule ⟨"Sum'", ["+", "x", "Sum'"]⟩ (by decide)) rfl ?_
    simp only [List.forall_mem_cons]
    exact ⟨hleaf "+" (by decide), hleaf "x" (by decide), hlast, by simp⟩
  refine .node 0 none (hrule ⟨"Sum", ["x", "Sum'"]⟩ (by decide)) rfl ?_
  simp only [List.forall_mem_cons]
  exact ⟨hleaf "x" (by decide), htail, by simp⟩

theorem parse_twoTerms :
    (parse (.ofGrammar .sums) twoTerms).complete = true ∧
      (parse (.ofGrammar .sums) twoTerms).errors = [] ∧
      (parse (.ofGrammar .sums) twoTerms).tree.outline = Tree.twoTerms := by
  have hword : twoTerms.map (·.symbol) =
      Tree.twoTerms.word (PreparedGrammar.ofGrammar .sums).normalized := by
    decide +kernel
  obtain ⟨hcomplete, herrors, htree, _⟩ := parse_of_derivation .sums (by decide +kernel)
    left_ne_epsilon_sums Tree.isDerivation_twoTerms (by decide +kernel) hword
  exact ⟨hcomplete, herrors, htree⟩

end FrontEnd
