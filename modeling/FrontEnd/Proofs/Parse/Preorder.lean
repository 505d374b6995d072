import FrontEnd.Proofs.Parse.History
import FrontEnd.Proofs.Parse.Labels

/-! # The order in which a tree is built

Every step but a skip settles what one node carries, and the nodes are settled in preorder. The
lines of the input never decrease, so neither do the lines of the settled nodes nor those of the
complaints. A node that was never settled has line 0, unless it is the root.

* `Event.label?`: what a step settles.
* `PartialTree.settled`: what is settled of a tree, in preorder; `settled_fill`, `settled_expand`:
  both operations add to its end.
* `ParseState.History.settled_eq`: the steps of a history settle the tree in their order.
* `ParseState.History.lines_increasing`: neither the terminals worked on nor those ahead go back.
* `parse_lines_follow_input`: the lines of a parse.
-/

namespace FrontEnd
set_option autoImplicit false

/-! ## Labels in preorder -/

namespace Tree

/-- A node that was never settled. -/
def unsettled (symbol : Symbol) : Terminal := ⟨symbol, none, 0⟩

theorem forestLabels_append (trees others : List Tree) :
    forestLabels (trees ++ others) = forestLabels trees ++ forestLabels others := by
  induction trees with
  | nil => rfl
  | cons tree trees ih => rw [List.cons_append, forestLabels, forestLabels, ih, List.append_assoc]

theorem forestLabels_singleton (tree : Tree) : forestLabels [tree] = tree.labels := by
  rw [forestLabels, forestLabels, List.append_nil]

theorem labels_leaf (symbol : Symbol) (line : Nat) (value : Option String) :
    labels ⟨symbol, line, value, []⟩ = [⟨symbol, value, line⟩] := by
  rw [labels, forestLabels]

theorem labels_ne_nil (tree : Tree) : tree.labels ≠ [] := by
  cases tree
  rw [labels]
  exact List.cons_ne_nil _ _

theorem forestLabels_bare (symbols : List Symbol) :
    forestLabels (symbols.map (bare · 0)) = symbols.map unsettled := by
  induction symbols with
  | nil => rfl
  | cons symbol symbols ih =>
    rw [List.map_cons, forestLabels, ih, bare, labels_leaf]
    rfl

end Tree

/-- What an opened node carries. -/
def OpenNode.label (node : OpenNode) : Terminal := ⟨node.symbol, none, node.line⟩

theorem OpenNode.labels_close (node : OpenNode) (trees : List Tree) :
    (node.close trees).labels =
      node.label :: (Tree.forestLabels node.done ++ Tree.forestLabels trees) := by
  rw [close, Tree.labels, Tree.forestLabels_append]
  rfl

/-- What is settled in front of the focus. -/
def Path.settled : Path → List Terminal
  | [] => []
  | node :: path => Path.settled path ++ node.label :: Tree.forestLabels node.done

namespace PartialTree

/-- What is settled of a tree under construction, in preorder. -/
def settled : PartialTree → List Terminal
  | complete tree => tree.labels
  | focused path _ => path.settled

theorem settled_fill (tree : Tree) (path : Path) :
    (fill tree path).settled = path.settled ++ tree.labels := by
  induction path generalizing tree with
  | nil => rfl
  | cons node path ih =>
    unfold fill
    split
    · rw [ih, OpenNode.labels_close, Tree.forestLabels_singleton, Path.settled]
      simp
    · rw [settled, Path.settled, Path.settled, Tree.forestLabels_append,
        Tree.forestLabels_singleton]
      simp [OpenNode.label]

theorem settled_expand (path : Path) (symbol : Symbol) (line position : Nat)
    (production : List Symbol) :
    (expand path symbol line position production).settled =
      path.settled ++ [⟨symbol, none, line⟩] := by
  cases production with
  | nil => rw [expand, settled_fill, Tree.bare, Tree.labels_leaf]
  | cons first waiting => rfl

/-- The symbols that still wait come last. -/
theorem exists_labels_assemble (tree : Tree) (path : Path) :
    ∃ waiting : List Symbol,
      (assemble tree path).labels = path.settled ++ tree.labels ++ waiting.map Tree.unsettled := by
  induction path generalizing tree with
  | nil => exact ⟨[], (List.append_nil _).symm⟩
  | cons node path ih =>
    obtain ⟨waiting, h⟩ := ih (node.close (tree :: node.waiting.map (Tree.bare · 0)))
    refine ⟨node.waiting ++ waiting, ?_⟩
    rw [assemble, h, OpenNode.labels_close, Tree.forestLabels, Tree.forestLabels_bare, Path.settled,
      List.map_append]
    simp

/-- Only a tree of which nothing is settled has its focus at the root, on the start symbol. -/
def FocusedFrom (start : Symbol) : PartialTree → Prop
  | complete _ => True
  | focused path focus => path = [] → focus = start

theorem focusedFrom_fill (start : Symbol) (tree : Tree) (path : Path) :
    (fill tree path).FocusedFrom start := by
  induction path generalizing tree with
  | nil => exact trivial
  | cons node path ih =>
    unfold fill
    split
    · exact ih _
    · exact fun h => absurd h (List.cons_ne_nil _ _)

theorem focusedFrom_expand (start : Symbol) (path : Path) (symbol : Symbol) (line position : Nat)
    (production : List Symbol) :
    (expand path symbol line position production).FocusedFrom start := by
  cases production with
  | nil => exact focusedFrom_fill start _ path
  | cons first waiting => exact fun h => absurd h (List.cons_ne_nil _ _)

/-- What is settled comes first, and the rest is unsettled; an unsettled root is on line 1. -/
theorem labels_toTree {tree : PartialTree} {start : Symbol} (h : tree.FocusedFrom start) :
    (tree.settled ≠ [] ∧ ∃ waiting : List Symbol,
        tree.toTree.labels = tree.settled ++ waiting.map Tree.unsettled) ∨
      (tree.settled = [] ∧ tree.toTree = .bare start 1) := by
  match tree with
  | complete tree => exact Or.inl ⟨tree.labels_ne_nil, [], (List.append_nil _).symm⟩
  | focused [] focus => exact Or.inr ⟨rfl, congrArg (Tree.bare · 1) (h rfl)⟩
  | focused (node :: path) focus =>
    refine Or.inl ⟨List.append_ne_nil_of_right_ne_nil _ (List.cons_ne_nil _ _), ?_⟩
    obtain ⟨waiting, hlabels⟩ := exists_labels_assemble (.bare focus 0) (node :: path)
    refine ⟨focus :: waiting, hlabels.trans ?_⟩
    rw [Tree.bare, Tree.labels_leaf, List.append_assoc]
    rfl

end PartialTree

/-! ## Steps -/

namespace Event

/-- What the node carries that a step settles. -/
def label? (event : Event) : Option Terminal :=
  match event.action with
  | .skip => none
  | .accept => some ⟨event.focus, event.next.value, event.next.line⟩
  | .expand _ | .cut | .synch | .vanish | .replace => some ⟨event.focus, none, event.next.line⟩

def line (event : Event) : Nat := event.next.line

theorem line_of_label? {event : Event} {label : Terminal} (h : event.label? = some label) :
    label.line = event.line := by
  obtain ⟨position, focus, next, action⟩ := event
  cases action with
  | skip => exact absurd h (by simp [label?])
  | accept | expand | cut | synch | vanish | replace => exact (Option.some.inj h) ▸ rfl

theorem line_of_error? {event : Event} {error : SyntaxError} (h : event.error? = some error) :
    error.line = event.line := by
  obtain ⟨fault, -, rfl⟩ := Option.map_eq_some_iff.1 h
  rfl

/-- What some of the events yield has their lines, in their order. -/
theorem map_filterMap_sublist {α : Type} {f : Event → Option α} {lineOf : α → Nat}
    (hf : ∀ {event : Event} {a : α}, f event = some a → lineOf a = event.line)
    (events : List Event) : ((events.filterMap f).map lineOf).Sublist (events.map line) := by
  induction events with
  | nil => exact .slnil
  | cons event events ih =>
    cases h : f event with
    | none =>
      rw [List.filterMap_cons_none h]
      exact ih.cons event.line
    | some a =>
      rw [List.filterMap_cons_some h, List.map_cons, hf h]
      exact ih.cons_cons event.line

end Event

namespace ParseState
variable {g : PreparedGrammar} {terminals : List Terminal}

theorem settled_apply {s : ParseState} {path : Path} {focus : Symbol}
    (h : s.tree = .focused path focus) (next : Terminal) (action : Action) :
    (s.apply g path focus next action).tree.settled =
      s.tree.settled ++ (Event.label? ⟨s.position, focus, next, action⟩).toList := by
  have hfinish : ∀ value, (s.finish path focus value next.line).tree.settled =
      s.tree.settled ++ [⟨focus, value, next.line⟩] := fun value => by
    rw [h, finish, PartialTree.settled_fill, Tree.labels_leaf]
    rfl
  cases action with
  | expand index =>
    rw [h]
    exact PartialTree.settled_expand ..
  | skip => exact (List.append_nil _).symm
  | accept => exact hfinish next.value
  | cut | synch | vanish | replace => exact hfinish none

theorem focusedFrom_apply {s : ParseState} {start : Symbol} (h : s.tree.FocusedFrom start)
    (path : Path) (focus : Symbol) (next : Terminal) (action : Action) :
    (s.apply g path focus next action).tree.FocusedFrom start := by
  cases action with
  | expand index => exact PartialTree.focusedFrom_expand ..
  | skip => exact h
  | cut | synch | vanish | accept | replace => exact PartialTree.focusedFrom_fill ..

/-! ## Histories -/

/-- The steps settle the nodes of the tree in preorder. -/
theorem History.settled_eq {s t : ParseState} {events : List Event} (h : History g s events t) :
    t.tree.settled = s.tree.settled ++ events.filterMap Event.label? := by
  induction h with
  | start => exact (List.append_nil _).symm
  | step _ htree _ _ ih =>
    rw [settled_apply htree, ih, List.filterMap_append, filterMap_singleton, List.append_assoc]

theorem History.focusedFrom {start : Symbol} {s t : ParseState} {events : List Event}
    (h : History g s events t) (hs : s.tree.FocusedFrom start) : t.tree.FocusedFrom start := by
  induction h with
  | start => exact hs
  | step _ _ _ _ ih => exact focusedFrom_apply ih ..

/-- The end marker is not in front of the last terminal. -/
theorem lines_ofTerminals (hs : (1 :: terminals.map (·.line)).Pairwise (· ≤ ·)) :
    (1 :: (ofTerminals g terminals).input.map (·.line)).Pairwise (· ≤ ·) := by
  rw [ofTerminals, List.map_append, ← List.cons_append, List.pairwise_append]
  refine ⟨hs, List.pairwise_singleton _ _, fun line hl last hlast => ?_⟩
  obtain rfl := List.mem_singleton.1 hlast
  cases hfinal : terminals.getLast? with
  | none =>
    rw [List.getLast?_eq_none_iff.1 hfinal] at hl
    exact Nat.le_of_eq (List.mem_singleton.1 hl)
  | some final =>
    obtain ⟨before, rfl⟩ := List.getLast?_eq_some_iff.1 hfinal
    rw [List.map_append, ← List.cons_append] at hl hs
    rcases List.mem_append.1 hl with hl | hl
    · exact (List.pairwise_append.1 hs).2.2 line hl final.line (by simp)
    · exact Nat.le_of_eq (List.mem_singleton.1 hl)

/-- Neither the terminals that were worked on nor those still ahead go back a line. -/
theorem History.lines_increasing {low : Nat} {s t : ParseState} {events : List Event}
    (h : History g s events t) (hs : (low :: s.input.map (·.line)).Pairwise (· ≤ ·)) :
    (low :: events.map Event.line ++ t.input.map (·.line)).Pairwise (· ≤ ·) := by
  induction h with
  | start => exact hs
  | @step events t path focus next rest action _ _ hinput _ ih =>
    rw [hinput, List.map_cons] at ih
    -- The next terminal was ahead before the step, and all or all but it still are.
    have hnext : (low :: events.map Event.line ++
        next.line :: next.line :: rest.map (·.line)).Pairwise (· ≤ ·) := by
      obtain ⟨hbefore, hahead, hcross⟩ := List.pairwise_append.1 ih
      refine List.pairwise_append.2 ⟨hbefore, ?_, fun line hl other ho => ?_⟩
      · refine List.pairwise_cons.2 ⟨fun other ho => ?_, hahead⟩
        rcases List.mem_cons.1 ho with rfl | ho
        · exact Nat.le_refl _
        · exact (List.pairwise_cons.1 hahead).1 other ho
      · exact hcross line hl other (by simpa using ho)
    rw [List.map_append, ← List.cons_append, List.append_assoc]
    refine hnext.sublist (List.Sublist.append_left (List.Sublist.cons_cons next.line ?_) _)
    rw [input_apply, hinput]
    exact (List.drop_sublist _ (next :: rest)).map _

end ParseState

/-! ## Parses -/

theorem ParseState.trailing_lines_sublist (s : ParseState) :
    (s.trailing.map (·.line)).Sublist (s.input.map (·.line)) := by
  unfold trailing
  split
  · rename_i next _ _ _ hinput
    rw [hinput]
    exact (List.nil_sublist _).cons_cons next.line
  · exact List.nil_sublist _

/-- If the lines of the input start from 1 and never decrease, then in preorder so do those of the
nodes that were settled, and the others follow, on line 0. If nothing was settled there is only a
root, on line 1. The complaints never go back a line either. -/
theorem parse_lines_follow_input (g : PreparedGrammar) {terminals : List Terminal}
    (hpos : ∀ t ∈ terminals, 1 ≤ t.line) (hs : (terminals.map (·.line)).Pairwise (· ≤ ·)) :
    ∃ events : List Event,
      ParseState.History g (.ofTerminals g terminals) events
        ((ParseState.ofTerminals g terminals).run g) ∧
      (1 :: (events.filterMap Event.label?).map (·.line)).Pairwise (· ≤ ·) ∧
      ((events.filterMap Event.label? ≠ [] ∧ ∃ waiting : List Symbol,
          (parse g terminals).tree.labels =
            events.filterMap Event.label? ++ waiting.map fun symbol => ⟨symbol, none, 0⟩) ∨
        (events.filterMap Event.label? = [] ∧
          (parse g terminals).tree = .bare g.normalized.start 1)) ∧
      ((parse g terminals).errors.map (·.line)).Pairwise (· ≤ ·) := by
  obtain ⟨events, hhistory, -⟩ := ParseState.exists_history_run (g := g) (.ofTerminals g terminals)
  have hlines : (1 :: terminals.map (·.line)).Pairwise (· ≤ ·) := by
    refine List.pairwise_cons.2 ⟨fun line hl => ?_, hs⟩
    obtain ⟨t, ht, rfl⟩ := List.mem_map.1 hl
    exact hpos t ht
  have hincreasing := hhistory.lines_increasing (ParseState.lines_ofTerminals hlines)
  refine ⟨events, hhistory, ?_, ?_, ?_⟩
  · exact hincreasing.sublist (((Event.map_filterMap_sublist Event.line_of_label? events).cons_cons
      1).trans (List.sublist_append_left _ _))
  · have hfocused : ((ParseState.ofTerminals g terminals).run g).tree.FocusedFrom
        g.normalized.start := hhistory.focusedFrom fun _ => rfl
    have hlabels := PartialTree.labels_toTree hfocused
    rwa [hhistory.settled_eq] at hlabels
  · have herrors := ((Event.map_filterMap_sublist Event.line_of_error? events).append
      (ParseState.trailing_lines_sublist ((ParseState.ofTerminals g terminals).run g)))
    refine hincreasing.sublist (.cons 1 ?_)
    rw [parse, List.map_append, hhistory.errors_eq]
    exact herrors

def Grammar.bracketed : Grammar where
  rules := [⟨"Pair", ["LP", "ID", "ID", "RP"]⟩]
  nonempty := List.cons_ne_nil _ _

/-- The input ends inside the brackets. -/
def openBracket : List Terminal := [⟨"LP", none, 1⟩, ⟨"ID", some "a", 3⟩]

/-- The closing bracket is never reached. -/
theorem parse_lines_follow_input_openBracket :
    (parse (.ofGrammar .bracketed) openBracket).tree.labels.map (·.line) = [1, 1, 3, 3, 0] ∧
      (∀ t ∈ openBracket, 1 ≤ t.line) ∧ (openBracket.map (·.line)).Pairwise (· ≤ ·) ∧
      ((parse (.ofGrammar .bracketed) openBracket).errors.map (·.line)).Pairwise (· ≤ ·) := by
  have hpos : ∀ t ∈ openBracket, 1 ≤ t.line := by decide
  have hs : (openBracket.map (·.line)).Pairwise (· ≤ ·) := by decide
  obtain ⟨events, -, -, -, herrors⟩ := parse_lines_follow_input (.ofGrammar .bracketed) hpos hs
  exact ⟨by decide +kernel, hpos, hs, herrors⟩

end FrontEnd
