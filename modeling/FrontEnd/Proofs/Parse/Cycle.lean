import FrontEnd.Proofs.Grammar.LeftCorner
import FrontEnd.Proofs.Parse.Soundness
import Mathlib.Order.WellFounded

/-! # Grammars without conflicts need no cycle check

A node that was opened where the parser still stands was opened with a rule that the next terminal
selects. All that has been finished below it has vanished, and the terminal is yet to come, so the
symbols along the path are left corners of each other. This holds after recovery too: a node that
something was dropped from is left behind, or was opened earlier.

* `Path.Expects`: the invariant for the nodes of a path.
* `Path.Expects.reopens_eq_false`: no symbol is opened within itself.
* `PartialTree.expects_fill`, `PartialTree.expects_expand`: both operations keep the invariant.
* `ParseState.expects_step?`: a step keeps it.
* `parse_without_cycles`: a parse never complains about a cycle.
-/

namespace FrontEnd
set_option autoImplicit false

/-! ## What is left of a production -/

namespace Grammar
variable {g : Grammar}

section
variable {rule : Rule} {before rest : List Symbol} {symbol t : Symbol}
  (hs : before ++ symbol :: rest = rule.production)
  (ht : t ∈ g.firstBefore g.firstSets ((g.followSets g.firstSets).lookup rule.left)
    (symbol :: rest))

include hs in
theorem right_eq_of_production : rule.right = before ++ symbol :: rest :=
  (Rule.production_eq_right (by rw [← hs]; simp)).symm.trans hs.symm

include hs ht

theorem mem_select_of_rest (hbefore : ∀ other ∈ before, g.Vanishes other) : t ∈ g.select rule := by
  rw [select, right_eq_of_production hs]
  exact mem_firstBefore_of_vanishes hbefore ht

variable (hr : rule ∈ g.rules)
include hr

/-- A nonterminal is expanded where what can come next in its place does come next. -/
theorem selects_of_rest (hn : g.isNonterminal symbol = true) (hε : symbol ≠ epsilon) :
    g.Selects symbol t := by
  rcases mem_firstBefore_cons.1 ht with ⟨hne, hb⟩ | ⟨hv, hrest⟩
  · exact .of_mem_firstSets hne ((begins_nonterminal hε hn).1 hb)
  · exact .of_mem_followSets ((begins_nonterminal hε hn).1 hv)
      (mem_followSets hr (right_eq_of_production hs) hn hrest)

theorem leftCorner_of_rest (hbefore : ∀ other ∈ before, g.Vanishes other)
    (h : g.Selects symbol t) : g.LeftCorner t symbol rule.left :=
  ⟨rule, hr, rfl, mem_select_of_rest hs ht hbefore,
    ⟨before, rest, right_eq_of_production hs, hbefore⟩, h⟩

end

end Grammar

/-! ## Paths -/

namespace Path
variable {g : Grammar} {t : Symbol} {position : Nat}

/-- The innermost nodes were opened at `position`. What is done below them has vanished, the focus
and what waits behind it are the rest of the production, and `t` can come next there. All others
were opened earlier. -/
inductive Expects (g : Grammar) (t : Symbol) (position : Nat) : Path → Symbol → Prop
  | earlier {path : Path} (focus : Symbol) (h : ∀ node ∈ path, node.openedAt < position) :
      Expects g t position path focus
  | here {node : OpenNode} {path : Path} {rule : Rule} {focus : Symbol} (hr : rule ∈ g.rules)
      (hl : node.symbol = rule.left) (ho : node.openedAt = position)
      (hs : node.done.map (·.symbol) ++ focus :: node.waiting = rule.production)
      (hd : ∀ tree ∈ node.done, g.Vanishes tree.symbol)
      (ht : t ∈ g.firstBefore g.firstSets ((g.followSets g.firstSets).lookup rule.left)
        (focus :: node.waiting))
      (hp : Expects g t position path rule.left) : Expects g t position (node :: path) focus

theorem Expects.openedAt_le {path : Path} {focus : Symbol} (h : path.Expects g t position focus) :
    ∀ node ∈ path, node.openedAt ≤ position := by
  induction h with
  | earlier _ h => exact fun node hn => Nat.le_of_lt (h node hn)
  | here _ _ ho _ _ _ _ ih =>
    intro node hn
    rcases List.mem_cons.1 hn with rfl | hn
    · exact Nat.le_of_eq ho
    · exact ih node hn

/-- An opened symbol around the focus leads down to it along left corners. -/
theorem Expects.leftCorners {path : Path} {focus : Symbol} (h : path.Expects g t position focus)
    (hfocus : g.Selects focus t) {symbol : Symbol} (hr : path.reopens symbol position = true) :
    Relation.TransGen (g.LeftCorner t) focus symbol := by
  induction h with
  | @earlier path focus h =>
    cases path with
    | nil => simp [reopens] at hr
    | cons node path =>
      have hne : node.openedAt ≠ position := Nat.ne_of_lt (h node (by simp))
      simp [reopens, hne] at hr
  | @here node path rule focus hrule hl ho hs hd ht _ ih =>
    have hbefore : ∀ other ∈ node.done.map (·.symbol), g.Vanishes other := by simpa using hd
    have hcorner := Grammar.leftCorner_of_rest hs ht hrule hbefore hfocus
    have hor : node.symbol = symbol ∨ path.reopens symbol position = true := by
      simpa [reopens, ho] using hr
    rcases hor with rfl | hr
    · exact .single (hl ▸ hcorner)
    · exact .head hcorner
        (ih ⟨rule, hrule, rfl, Grammar.mem_select_of_rest hs ht hbefore⟩ hr)

/-- A focus inside a node that was opened at `position` has a rule for `t`. -/
theorem Expects.earlier_or_selects {path : Path} {focus : Symbol}
    (h : path.Expects g t position focus) (hn : g.isNonterminal focus = true)
    (hε : focus ≠ epsilon) :
    (∀ node ∈ path, node.openedAt < position) ∨ g.Selects focus t := by
  cases h with
  | earlier _ h => exact Or.inl h
  | here hr _ _ hs _ ht _ => exact Or.inr (Grammar.selects_of_rest hs ht hr hn hε)

theorem Expects.reopens_eq_false (hg : g.table.conflicts = [])
    (hε : ∀ rule ∈ g.rules, rule.left ≠ epsilon) {path : Path} {focus : Symbol}
    (h : path.Expects g t position focus) (hfocus : g.Selects focus t) :
    path.reopens focus position = false := by
  refine Bool.eq_false_iff.2 fun hr => ?_
  have hwf := (Grammar.wellFounded_leftCorner hg hε t).transGen
  exact hwf.irrefl.irrefl focus (h.leftCorners hfocus hr)

end Path

/-! ## Operations -/

namespace PartialTree
variable {g : Grammar} {t : Symbol} {position : Nat}

def Expects (g : Grammar) (t : Symbol) (position : Nat) : PartialTree → Prop
  | complete _ => True
  | focused path focus => path.Expects g t position focus

/-- Nothing is expected of nodes that were opened earlier. -/
theorem expects_fill_earlier {path : Path} (h : ∀ node ∈ path, node.openedAt < position)
    (tree : Tree) : (fill tree path).Expects g t position := by
  induction path generalizing tree with
  | nil => trivial
  | cons node path ih =>
    unfold fill
    split
    · exact ih (fun other ho => h other (by simp [ho])) _
    · refine .earlier _ fun other ho => ?_
      rcases List.mem_cons.1 ho with rfl | ho
      · exact h node (by simp)
      · exact h other (by simp [ho])

section
variable (hg : g.table.conflicts = []) (hε : ∀ rule ∈ g.rules, rule.left ≠ epsilon)
include hg hε

/-- A tree that has vanished and that `t` did not come from leaves `t` to what waits. -/
theorem expects_fill (hne : t ≠ epsilon) {path : Path} {tree : Tree}
    (hp : path.Expects g t position tree.symbol) (hv : g.Vanishes tree.symbol)
    (ht : ¬g.Begins g.firstSets tree.symbol t) : (fill tree path).Expects g t position := by
  induction path generalizing tree with
  | nil => trivial
  | cons node path ih =>
    generalize hsymbol : tree.symbol = symbol at *
    cases hp with
    | earlier _ h => exact expects_fill_earlier h tree
    | @here _ _ rule _ hr hl ho hs hd hrest hp =>
      have hdone : ∀ other ∈ node.done ++ [tree], g.Vanishes other.symbol := by
        intro other ho
        rcases List.mem_append.1 ho with ho | ho
        · exact hd other ho
        · rw [List.mem_singleton.1 ho, hsymbol]
          exact hv
      have hwaiting : t ∈ g.firstBefore g.firstSets
          ((g.followSets g.firstSets).lookup rule.left) node.waiting :=
        ((Grammar.mem_firstBefore_cons.1 hrest).resolve_left fun h => ht h.2).2
      unfold fill
      split
      · rename_i hw
        have hfollow : t ∈ (g.followSets g.firstSets).lookup rule.left := by
          rw [hw] at hwaiting
          exact ((Grammar.mem_firstBefore.1 hwaiting).resolve_left fun h =>
            h.1 (Grammar.mem_firstOf_nil.1 h.2)).2
        have hclosed : g.Vanishes rule.left := by
          refine Grammar.vanishes_left hε hr fun other ho => ?_
          rw [← hs, hw, ← hsymbol] at ho
          have ho : other ∈ (node.done ++ [tree]).map (·.symbol) := by simpa using ho
          obtain ⟨child, hc, rfl⟩ := List.mem_map.1 ho
          exact hdone child hc
        have hbegins := Grammar.not_begins_of_follows hg hne (Grammar.isNonterminal_left hr) hclosed
          hfollow
        have hsame : (node.close [tree]).symbol = rule.left := hl
        rw [← hsame] at hp hclosed hbegins
        exact ih hp hclosed hbegins
      · rename_i next waiting hw
        refine .here hr hl ho ?_ hdone (hw ▸ hwaiting) hp
        rw [← hs, hw, List.map_append, List.append_assoc, ← hsymbol]
        rfl

theorem expects_expand {path : Path} {rule : Rule} (hr : rule ∈ g.rules) (ht : t ∈ g.select rule)
    (hp : path.Expects g t position rule.left) (line : Nat) :
    (expand path rule.left line position rule.production).Expects g t position := by
  have hne := Grammar.ne_epsilon_of_mem_select hε ht
  unfold expand
  split
  · rename_i he
    have hv : g.Vanishes rule.left := Grammar.vanishes_left hε hr (by simp [he])
    have hfollow : t ∈ (g.followSets g.firstSets).lookup rule.left := by
      rw [Grammar.mem_select, ← Grammar.firstOf_production, he] at ht
      exact (ht.resolve_left fun h => h.1 (Grammar.mem_firstOf_nil.1 h.2)).2
    exact expects_fill hg hε hne hp hv
      (Grammar.not_begins_of_follows hg hne (Grammar.isNonterminal_left hr) hv hfollow)
  · rename_i first waiting he
    have hs : [] ++ first :: waiting = rule.production := he.symm
    have hright : rule.right = first :: waiting := Grammar.right_eq_of_production hs
    rw [Grammar.select, hright] at ht
    exact .here hr rfl rfl he.symm (by simp) ht hp

end

end PartialTree

/-! ## Steps -/

/-- Nodes opened at the current position expect the next terminal. -/
def ParseState.Expects (g : PreparedGrammar) (s : ParseState) : Prop :=
  ∀ next rest, s.input = next :: rest → s.tree.Expects g.normalized next.symbol s.position

theorem ParseState.expects_ofTerminals (g : PreparedGrammar) (terminals : List Terminal) :
    (ofTerminals g terminals).Expects g :=
  fun _ _ _ => .earlier _ (by simp)

/-- None of the complaints so far is about a cycle. -/
def ParseState.NoCycle (s : ParseState) : Prop :=
  ∀ error ∈ s.errors, ∀ nonterminal, error.fault ≠ .cycle nonterminal

theorem ParseState.NoCycle.addError {s : ParseState} (h : s.NoCycle) (line : Nat)
    {fault : SyntaxFault} (hf : ∀ nonterminal, fault ≠ .cycle nonterminal) :
    (s.addError line fault).NoCycle := by
  intro error he
  rcases List.mem_append.1 he with he | he
  · exact h error he
  · rw [List.mem_singleton.1 he]
    exact hf

section
variable {g : PreparedGrammar} (hg : g.table = g.normalized.table)
  (hconflicts : g.table.conflicts = []) (hε : ∀ rule ∈ g.normalized.rules, rule.left ≠ epsilon)
include hg hconflicts hε

theorem Action.Chosen.ne_cut {path : Path} {focus found : Symbol} {position : Nat}
    {action : Action} (h : Chosen g path focus position found action)
    (hp : path.Expects g.normalized found position focus) : action ≠ .cut := by
  rintro rfl
  cases h with
  | cut hn hc hr =>
    rw [hg] at hc hconflicts
    obtain ⟨rule, hi, hl, ht⟩ := Grammar.rule_of_cell? hc
    have hopen := hp.reopens_eq_false hconflicts hε ⟨rule, List.mem_of_getElem? hi, hl, ht⟩
    rw [hr] at hopen
    exact absurd hopen (by simp)

theorem ParseState.expects_step? {s t : ParseState} (h : s.step? g = some t)
    (hs : s.Expects g) : t.Expects g := by
  obtain ⟨path, focus, next, rest, action, htree, hinput, hchosen, rfl⟩ :=
    exists_chosen_of_step? h
  obtain ⟨tree, input, position, errors⟩ := s
  obtain rfl : tree = .focused path focus := htree
  obtain rfl : input = next :: rest := hinput
  have hp : path.Expects g.normalized next.symbol position focus := hs next rest rfl
  have hlater : ∀ node ∈ path, node.openedAt < position + 1 :=
    fun node hn => Nat.lt_succ_of_le (hp.openedAt_le node hn)
  have hne := hchosen.ne_cut hg hconflicts hε hp
  intro next' rest' hi
  cases hchosen with
  | cut => exact absurd rfl hne
  | expand hn hc hr =>
    obtain ⟨rfl, rfl⟩ := List.cons.inj hi
    rw [hg] at hc hconflicts
    obtain ⟨rule, hindex, rfl, ht⟩ := Grammar.rule_of_cell? hc
    have hexpand := PartialTree.expects_expand hconflicts hε (List.mem_of_getElem? hindex) ht hp
      next.line
    rw [← Grammar.production_of_getElem? hindex] at hexpand
    exact hexpand
  | synch hn hc =>
    obtain ⟨rfl, rfl⟩ := List.cons.inj hi
    have hfocus :=
      Grammar.ne_epsilon_of_isNonterminal (Grammar.isNonterminal_eq_false_iff.2 hε) hn
    rcases hp.earlier_or_selects hn hfocus with hearlier | hselects
    · exact PartialTree.expects_fill_earlier hearlier _
    · rw [hg] at hc hconflicts
      obtain ⟨index, hcell⟩ := hselects.exists_cell? hconflicts
      rw [hcell] at hc
      exact absurd hc (by simp)
  | skip => exact .earlier focus hlater
  | vanish hn he =>
    obtain ⟨rfl, rfl⟩ := List.cons.inj hi
    subst he
    cases hp with
    | earlier _ h => exact PartialTree.expects_fill_earlier h _
    | here hr hl ho hs hd ht hp =>
      have hne := Grammar.ne_epsilon_of_mem_select hε
        (Grammar.mem_select_of_rest hs ht (by simpa using hd))
      exact PartialTree.expects_fill (hg ▸ hconflicts) hε hne (.here hr hl ho hs hd ht hp)
        (Grammar.begins_epsilon.2 rfl) fun hb => hne (Grammar.begins_epsilon.1 hb)
  | accept => exact PartialTree.expects_fill_earlier hlater _
  | replace => exact PartialTree.expects_fill_earlier hlater _

theorem ParseState.noCycle_step? {s t : ParseState} (h : s.step? g = some t)
    (hs : s.Expects g) (hn : s.NoCycle) : t.NoCycle := by
  obtain ⟨path, focus, next, rest, action, htree, hinput, hchosen, rfl⟩ :=
    exists_chosen_of_step? h
  have hp : path.Expects g.normalized next.symbol s.position focus := by
    have hp := hs next rest hinput
    rwa [htree] at hp
  have hne := hchosen.ne_cut hg hconflicts hε hp
  cases action with
  | cut => exact absurd rfl hne
  | expand | vanish | accept => exact hn
  | synch | skip | replace => exact NoCycle.addError hn _ (by simp)

end

/-- Without conflicts a parse never complains that a nonterminal would be expanded inside itself,
whatever its input is and whatever it has had to repair. -/
theorem parse_without_cycles (source : Grammar)
    (hconflicts : (PreparedGrammar.ofGrammar source).table.conflicts = [])
    (hε : ∀ rule ∈ (PreparedGrammar.ofGrammar source).normalized.rules, rule.left ≠ epsilon)
    (terminals : List Terminal) :
    ∀ error ∈ (parse (.ofGrammar source) terminals).errors, ∀ nonterminal,
      error.fault ≠ .cycle nonterminal := by
  obtain ⟨n, hruns, -⟩ := ParseState.exists_runs_run (g := .ofGrammar source)
    (.ofTerminals (.ofGrammar source) terminals)
  have hstep : ∀ s t : ParseState, s.step? (.ofGrammar source) = some t →
      s.Expects (.ofGrammar source) ∧ s.NoCycle → t.Expects (.ofGrammar source) ∧ t.NoCycle :=
    fun s t h hs => ⟨ParseState.expects_step? rfl hconflicts hε h hs.1,
      ParseState.noCycle_step? rfl hconflicts hε h hs.1 hs.2⟩
  have hlast := (hruns.preserves hstep ⟨ParseState.expects_ofTerminals _ _,
    fun error he => absurd he (by simp [ParseState.ofTerminals])⟩).2
  intro error he
  rcases List.mem_append.1 he with he | he
  · exact hlast error he
  · unfold ParseState.trailing at he
    split at he
    · rw [List.mem_singleton.1 he]
      simp
    · simp at he

/-- `A` and `B` start with each other, but nothing ever leads to them. -/
def Grammar.unreachedCycle : Grammar where
  rules := [⟨"S", ["x", "S"]⟩, ⟨"S", [epsilon]⟩, ⟨"S", ["A"]⟩, ⟨"A", ["B", "a"]⟩,
    ⟨"B", ["A", "b"]⟩]
  nonempty := by simp

theorem parse_without_cycles_unreachedCycle :
    (PreparedGrammar.ofGrammar .unreachedCycle).table.conflicts = [] ∧
      (parse (.ofGrammar .unreachedCycle) [⟨"x", none, 1⟩, ⟨"a", none, 1⟩]).errors ≠ [] ∧
      ∀ error ∈ (parse (.ofGrammar .unreachedCycle) [⟨"x", none, 1⟩, ⟨"a", none, 1⟩]).errors,
        ∀ nonterminal, error.fault ≠ .cycle nonterminal := by
  have hconflicts : (PreparedGrammar.ofGrammar .unreachedCycle).table.conflicts = [] := by
    decide +kernel
  exact ⟨hconflicts, by decide +kernel,
    parse_without_cycles .unreachedCycle hconflicts (by decide +kernel) _⟩

end FrontEnd
