import FrontEnd.Proofs.Grammar.Builtin
import FrontEnd.Proofs.Grammar.Language
import FrontEnd.Proofs.Parse.Run

/-! # Parses without errors are derivations

Until the first error, the opened nodes are the beginning of a derivation and the leaves below them
are the terminals used so far.

* `Path.Derives`: each opened node has a part of a production below it, and the focus comes next.
* `PartialTree.derives_fill`, `PartialTree.derives_expand`: both operations keep it and the order
  of the leaves.
* `ParseState.Faithful`: the invariant, `ParseState.faithful_step?` that a step keeps it.
* `derivation_of_parse`: a complete parse without errors gives a derivation of its input.
* `incomplete_without_errors_iff`: what a parse that is neither has done.
-/

namespace FrontEnd
set_option autoImplicit false

/-! ## Beginnings of derivations -/

namespace Path
variable {g : Grammar}

/-- The opened nodes are the beginning of a derivation from the start symbol and lack a derivation
of `focus` next. -/
inductive Derives (g : Grammar) : Path → Symbol → Prop
  | root : Derives g [] g.start
  | inside {node : OpenNode} {path : Path} {rule : Rule} {focus : Symbol} (hr : rule ∈ g.rules)
      (hl : node.symbol = rule.left)
      (hs : node.done.map (·.symbol) ++ focus :: node.waiting = rule.production)
      (hd : ∀ tree ∈ node.done, tree.IsDerivation g) (hp : Derives g path rule.left) :
      Derives g (node :: path) focus

/-- The terminals of all finished children. -/
def leaves (g : Grammar) : Path → List Terminal
  | [] => []
  | node :: path => leaves g path ++ Tree.forestLeaves g node.done

theorem Derives.exists_rule_of_mem_leaves {path : Path} {focus : Symbol} (h : path.Derives g focus)
    {t : Terminal} (ht : t ∈ path.leaves g) : ∃ rule ∈ g.rules, t.symbol ∈ rule.right := by
  induction h with
  | root => simp [leaves] at ht
  | @inside node path rule focus hr hl hs hd _ ih =>
    rw [leaves, List.mem_append, Tree.mem_forestLeaves] at ht
    rcases ht with ht | ⟨tree, hm, ht⟩
    · exact ih ht
    · rcases (hd tree hm).exists_rule_of_mem_leaves ht with he | hrule
      · have hp : t.symbol ∈ rule.production := by
          rw [← hs, he]
          exact List.mem_append_left _ (List.mem_map_of_mem hm)
        exact ⟨rule, hr, Rule.mem_right_of_mem_production hp⟩
      · exact hrule

end Path

namespace PartialTree
variable {g : Grammar}

def Derives (g : Grammar) : PartialTree → Prop
  | complete tree => tree.IsDerivation g ∧ tree.symbol = g.start
  | focused path focus => path.Derives g focus

def leaves (g : Grammar) : PartialTree → List Terminal
  | complete tree => tree.leaves g
  | focused path _ => path.leaves g

/-- A derivation at the focus adds its leaves behind those that are there. -/
theorem derives_fill {path : Path} {tree : Tree} (ht : tree.IsDerivation g)
    (hp : path.Derives g tree.symbol) :
    (fill tree path).Derives g ∧ (fill tree path).leaves g = path.leaves g ++ tree.leaves g := by
  induction path generalizing tree with
  | nil =>
    refine ⟨⟨ht, ?_⟩, by rw [Path.leaves, List.nil_append]; rfl⟩
    generalize hs : tree.symbol = symbol at hp
    cases hp
    rfl
  | cons node path ih =>
    cases hp with
    | @inside _ _ rule _ hr hl hs hd hp =>
      have hdone : ∀ child ∈ node.done ++ [tree], child.IsDerivation g := by
        intro child hc
        rcases List.mem_append.1 hc with hc | hc
        · exact hd child hc
        · rw [List.mem_singleton.1 hc]
          exact ht
      have hleaves : Tree.forestLeaves g (node.done ++ [tree]) =
          Tree.forestLeaves g node.done ++ tree.leaves g := by
        rw [Tree.forestLeaves_append, Tree.forestLeaves, Tree.forestLeaves, List.append_nil]
      unfold fill
      split
      · rename_i hw
        have hclosed : (node.close [tree]).IsDerivation g := by
          rw [OpenNode.close, hl]
          refine .node _ _ hr ?_ hdone
          rw [← hs, hw, List.map_append]
          rfl
        obtain ⟨hd', hl'⟩ := ih hclosed (by rwa [OpenNode.close, hl])
        refine ⟨hd', ?_⟩
        have ht' := Tree.isTerminal_of_isNonterminal (Grammar.isNonterminal_left hr)
        rw [hl', OpenNode.close, Tree.leaves_of_not_terminal (hl ▸ ht'), hleaves, Path.leaves,
          List.append_assoc]
      · rename_i next waiting hw
        refine ⟨.inside hr hl ?_ hdone hp, ?_⟩
        · rw [← hs, hw, List.map_append, List.append_assoc]
          rfl
        · rw [leaves, Path.leaves, hleaves, Path.leaves, List.append_assoc]

theorem derives_expand {path : Path} {rule : Rule} (hr : rule ∈ g.rules)
    (hp : path.Derives g rule.left) (line position : Nat) :
    (expand path rule.left line position rule.production).Derives g ∧
      (expand path rule.left line position rule.production).leaves g = path.leaves g := by
  unfold expand
  split
  · rename_i he
    have ht : (Tree.bare rule.left line).IsDerivation g :=
      .node line none hr he.symm (by simp)
    obtain ⟨hd, hl⟩ := derives_fill ht hp
    refine ⟨hd, ?_⟩
    rw [hl, Tree.bare, Tree.leaves_of_not_terminal
      (Tree.isTerminal_of_isNonterminal (Grammar.isNonterminal_left hr)), Tree.forestLeaves,
      List.append_nil]
  · rename_i first waiting he
    refine ⟨.inside hr rfl he.symm (by simp) hp, ?_⟩
    rw [leaves, Path.leaves, Tree.forestLeaves, List.append_nil]

/-- Every leaf is on the right side of a rule. -/
theorem Derives.exists_rule_of_mem_leaves {tree : PartialTree} (h : tree.Derives g) {t : Terminal}
    (ht : t ∈ tree.leaves g) : ∃ rule ∈ g.rules, t.symbol ∈ rule.right := by
  cases tree with
  | focused path focus => exact Path.Derives.exists_rule_of_mem_leaves h ht
  | complete tree =>
    refine (h.1.exists_rule_of_mem_leaves ht).resolve_left fun hs => ?_
    -- The root is not a leaf.
    have hstart := Grammar.isNonterminal_left (List.head_mem g.nonempty)
    have hterminal := Tree.isTerminal_of_mem_leaves ht
    rw [hs, h.2, Grammar.start, Tree.isTerminal_of_isNonterminal hstart] at hterminal
    exact absurd hterminal (by simp)

end PartialTree

/-! ## The invariant -/

namespace ParseState
variable {g : PreparedGrammar}

/-- Without an error so far, the tree is the beginning of a derivation and its leaves are the part
of `all` that was used. -/
def Faithful (g : PreparedGrammar) (all : List Terminal) (s : ParseState) : Prop :=
  s.position + s.input.length = all.length ∧
    (s.errors = [] → s.tree.Derives g.normalized ∧ s.tree.leaves g.normalized ++ s.input = all)

theorem Faithful.of_error {all : List Terminal} {s : ParseState} {line : Nat}
    {fault : SyntaxFault} (h : s.position + s.input.length = all.length) :
    (s.addError line fault).Faithful g all :=
  ⟨h, fun he => by simp [addError] at he⟩

theorem exists_faithful_ofTerminals (g : PreparedGrammar) (terminals : List Terminal) :
    ∃ last : Terminal, last.symbol = endMarker ∧
      (ofTerminals g terminals).Faithful g (terminals ++ [last]) := by
  obtain ⟨last, hlast, hend⟩ : ∃ last : Terminal,
      (ofTerminals g terminals).input = terminals ++ [last] ∧ last.symbol = endMarker :=
    ⟨_, rfl, rfl⟩
  exact ⟨last, hend, by rw [hlast]; exact Nat.zero_add _, fun _ => ⟨.root, hlast⟩⟩

theorem faithful_step? (hg : g.table = g.normalized.table) {all : List Terminal}
    {s t : ParseState} (h : s.step? g = some t) (hs : s.Faithful g all) : t.Faithful g all := by
  obtain ⟨path, focus, next, rest, action, htree, hinput, hchosen, rfl⟩ :=
    exists_chosen_of_step? h
  obtain ⟨tree, input, position, errors⟩ := s
  obtain rfl : tree = .focused path focus := htree
  obtain rfl : input = next :: rest := hinput
  obtain ⟨hlength, hd⟩ := hs
  dsimp only [PartialTree.Derives, PartialTree.leaves, List.length_cons] at hlength hd
  have hused : position + 1 + rest.length = all.length := by omega
  cases hchosen with
  | cut | synch => exact .of_error hlength
  | skip | replace => exact .of_error hused
  | expand hn hc =>
    refine ⟨hlength, fun he => ?_⟩
    obtain ⟨hp, hl⟩ := hd he
    rw [hg] at hc
    obtain ⟨rule, hi, rfl, _⟩ := Grammar.rule_of_cell? hc
    obtain ⟨h1, h2⟩ := PartialTree.derives_expand (List.mem_of_getElem? hi) hp next.line position
    rw [← Grammar.production_of_getElem? hi] at h1 h2
    exact ⟨h1, (congrArg (· ++ next :: rest) h2).trans hl⟩
  | vanish hn hfocus =>
    refine ⟨hlength, fun he => ?_⟩
    obtain ⟨hp, hl⟩ := hd he
    obtain ⟨h1, h2⟩ := PartialTree.derives_fill (.leaf next.line none hn) hp
    subst hfocus
    rw [Tree.leaves_of_not_terminal Tree.isTerminal_epsilon, Tree.forestLeaves,
      List.append_nil] at h2
    exact ⟨h1, (congrArg (· ++ next :: rest) h2).trans hl⟩
  | accept hn hfocus hfound =>
    refine ⟨hused, fun he => ?_⟩
    obtain ⟨hp, hl⟩ := hd he
    obtain ⟨h1, h2⟩ := PartialTree.derives_fill (.leaf next.line next.value hn) hp
    have hterminal : g.normalized.isTerminal focus = true := by
      simpa [Grammar.isTerminal, hn] using hfocus
    subst hfound
    rw [Tree.leaves_terminal hterminal] at h2
    refine ⟨h1, (congrArg (· ++ rest) h2).trans ?_⟩
    rw [List.append_assoc]
    exact hl

end ParseState

/-! ## Soundness -/

section
variable {g : PreparedGrammar} {terminals : List Terminal}

theorem faithful_run (hg : g.table = g.normalized.table) (terminals : List Terminal) :
    ∃ last : Terminal, last.symbol = endMarker ∧
      ((ParseState.ofTerminals g terminals).run g).step? g = none ∧
      ((ParseState.ofTerminals g terminals).run g).Faithful g (terminals ++ [last]) := by
  obtain ⟨n, hruns, hfinal⟩ := ParseState.exists_runs_run (g := g) (.ofTerminals g terminals)
  obtain ⟨last, hend, hinit⟩ := ParseState.exists_faithful_ofTerminals g terminals
  exact ⟨last, hend, hfinal, hruns.preserves (fun s t => ParseState.faithful_step? hg) hinit⟩

theorem isDerivation_of_parse (hg : g.table = g.normalized.table)
    (hcomplete : (parse g terminals).complete = true) (herrors : (parse g terminals).errors = []) :
    (parse g terminals).tree.IsDerivation g.normalized ∧
      (parse g terminals).tree.symbol = g.normalized.start ∧
      (parse g terminals).tree.leaves g.normalized = terminals := by
  obtain ⟨last, -, hfinal, hinv⟩ := faithful_run hg terminals
  unfold parse at hcomplete herrors ⊢
  generalize (ParseState.ofTerminals g terminals).run g = final at *
  obtain ⟨tree, input, position, errors⟩ := final
  obtain ⟨hlength, hd⟩ := hinv
  obtain ⟨hd, hl⟩ := hd (List.append_eq_nil_iff.1 herrors).1
  -- The end marker is all that is left, so the tree is complete.
  have hposition : position = terminals.length := by simpa using hcomplete
  rw [hposition, List.length_append, List.length_singleton] at hlength
  obtain ⟨x, rfl⟩ := List.length_eq_one_iff.1 (Nat.add_left_cancel hlength)
  cases tree with
  | focused path focus => simp [ParseState.step?] at hfinal
  | complete tree => exact ⟨hd.1, hd.2, (List.append_inj' hl rfl).1⟩

/-- A parse without errors that is not complete has used up the end marker as well. -/
theorem incomplete_without_errors_iff (hg : g.table = g.normalized.table) :
    (parse g terminals).complete = false ∧ (parse g terminals).errors = [] ↔
      ((ParseState.ofTerminals g terminals).run g).errors = [] ∧
        ∃ last : Terminal, last.symbol = endMarker ∧
          ((ParseState.ofTerminals g terminals).run g).tree.leaves g.normalized =
            terminals ++ [last] := by
  obtain ⟨last, hlast, hfinal, hinv⟩ := faithful_run hg terminals
  unfold parse
  generalize (ParseState.ofTerminals g terminals).run g = final at *
  obtain ⟨tree, input, position, errors⟩ := final
  obtain ⟨hlength, hd⟩ := hinv
  dsimp only at hlength hd ⊢
  rw [List.length_append, List.length_singleton] at hlength
  constructor
  · rintro ⟨hincomplete, hall⟩
    obtain ⟨herrors, htrailing⟩ := List.append_eq_nil_iff.1 hall
    refine ⟨herrors, last, hlast, ?_⟩
    match input with
    | [] => rw [← (hd herrors).2, List.append_nil]
    | [_] =>
      have hposition : position = terminals.length := Nat.add_right_cancel hlength
      simp [hposition] at hincomplete
    | next :: _ :: _ =>
      cases tree with
      | focused path focus => simp [ParseState.step?] at hfinal
      | complete tree => simp [ParseState.trailing] at htrailing
  · rintro ⟨herrors, other, -, hleaves⟩
    have hinput : input = [] := by
      have hl := congrArg List.length (hd herrors).2
      rw [hleaves] at hl
      simpa using hl
    subst hinput
    have hposition : position = terminals.length + 1 := hlength
    refine ⟨by simp [hposition], ?_⟩
    rw [herrors]
    cases tree <;> rfl

/-- The end marker can only be used up by a rule that mentions it. -/
theorem exists_endMarker_of_incomplete (hg : g.table = g.normalized.table)
    (hcomplete : (parse g terminals).complete = false) (herrors : (parse g terminals).errors = []) :
    ∃ rule ∈ g.normalized.rules, endMarker ∈ rule.right := by
  obtain ⟨he, last, hlast, hleaves⟩ := (incomplete_without_errors_iff hg).1 ⟨hcomplete, herrors⟩
  obtain ⟨_, _, _, hinv⟩ := faithful_run hg terminals
  have hmem : last ∈ ((ParseState.ofTerminals g terminals).run g).tree.leaves g.normalized := by
    rw [hleaves]
    exact List.mem_append_right _ (List.mem_singleton_self _)
  rw [← hlast]
  exact (hinv.2 he).1.exists_rule_of_mem_leaves hmem

/-- Unless the grammar mentions the end marker, a parse without errors is complete. -/
theorem complete_of_errors_eq_nil (hg : g.table = g.normalized.table)
    (hend : ∀ rule ∈ g.normalized.rules, endMarker ∉ rule.right)
    (herrors : (parse g terminals).errors = []) : (parse g terminals).complete = true := by
  cases hcomplete : (parse g terminals).complete with
  | true => rfl
  | false =>
    obtain ⟨rule, hr, hm⟩ := exists_endMarker_of_incomplete hg hcomplete herrors
    exact absurd hm (hend rule hr)

end

/-- A parse with the built-in grammar is a derivation of its input if there are no errors. -/
theorem isDerivation_builtin {terminals : List Terminal}
    (herrors : (parse .builtin terminals).errors = []) :
    (parse .builtin terminals).tree.IsDerivation .expanded ∧
      (parse .builtin terminals).tree.symbol = "Program" ∧
      (parse .builtin terminals).tree.leaves .expanded = terminals := by
  have hcomplete := complete_of_errors_eq_nil rfl
    (Grammar.normalized_builtin ▸ Grammar.endMarker_not_mem_expanded) herrors
  have hparse := isDerivation_of_parse rfl hcomplete herrors
  rw [Grammar.normalized_builtin] at hparse
  exact hparse

/-- A parse that is complete and has no errors gives a derivation from the start symbol whose leaves
are the terminals that were parsed, values and lines included. -/
theorem derivation_of_parse (source : Grammar) (terminals : List Terminal)
    (hε : ∀ rule ∈ (PreparedGrammar.ofGrammar source).normalized.rules, rule.left ≠ epsilon)
    (hcomplete : (parse (.ofGrammar source) terminals).complete = true)
    (herrors : (parse (.ofGrammar source) terminals).errors = []) :
    (parse (.ofGrammar source) terminals).tree.IsDerivation
        (PreparedGrammar.ofGrammar source).normalized ∧
      (parse (.ofGrammar source) terminals).tree.symbol =
        (PreparedGrammar.ofGrammar source).normalized.start ∧
      (parse (.ofGrammar source) terminals).tree.leaves
        (PreparedGrammar.ofGrammar source).normalized = terminals ∧
      (PreparedGrammar.ofGrammar source).normalized.Generates (terminals.map (·.symbol)) := by
  obtain ⟨hd, hs, hl⟩ := isDerivation_of_parse rfl hcomplete herrors
  refine ⟨hd, hs, hl, ?_⟩
  refine (Grammar.generates_iff (Grammar.isNonterminal_eq_false_iff.2 hε)).2 ⟨_, hd, hs, ?_⟩
  rw [Tree.word, hl]

/-! ## Sums -/

/-- Sums of `x`, written with left recursion. -/
def Grammar.sums : Grammar where
  rules := [⟨"Sum", ["Sum", "+", "x"]⟩, ⟨"Sum", ["x"]⟩]
  nonempty := by simp

def twoTerms : List Terminal := [⟨"x", some "a", 1⟩, ⟨"+", none, 2⟩, ⟨"x", some "b", 2⟩]

theorem rules_normalized_sums :
    (PreparedGrammar.ofGrammar .sums).normalized.rules =
      [⟨"Sum", ["x", "Sum'"]⟩, ⟨"Sum'", ["+", "x", "Sum'"]⟩, ⟨"Sum'", [epsilon]⟩] := by
  decide +kernel

theorem left_ne_epsilon_sums :
    ∀ rule ∈ (PreparedGrammar.ofGrammar .sums).normalized.rules, rule.left ≠ epsilon := by
  rw [rules_normalized_sums]
  decide

theorem derivation_of_parse_twoTerms :
    (parse (.ofGrammar .sums) twoTerms).tree.leaves
        (PreparedGrammar.ofGrammar .sums).normalized = twoTerms ∧
      (PreparedGrammar.ofGrammar .sums).normalized.Generates ["x", "+", "x"] := by
  obtain ⟨_, _, hleaves, hword⟩ := derivation_of_parse .sums twoTerms
    left_ne_epsilon_sums (by decide +kernel) (by decide +kernel)
  exact ⟨hleaves, hword⟩

end FrontEnd
