import FrontEnd.Proofs.Parse.History
import FrontEnd.Proofs.Parse.Labels

/-! # Every terminal is accounted for

Whatever the grammar and the input, a terminal that a parse uses is either matched or skipped. The
skipped ones are complained about, each once and in order; the matched ones are found in the tree,
each at a leaf of its own and in order.

* `MatchedAt`: the leaves at some positions of a preorder are the matched ones.
* `Tree.Matches`: the same by recursion on the tree.
* `PartialTree.matches_fill`, `PartialTree.matches_expand`: both operations keep what was matched.
* `terminals_accounted`: all terminals of a parse.
-/

namespace FrontEnd
set_option autoImplicit false

/-! ## Leaves in preorder -/

namespace Tree

/-- The symbol, the value and the line of a leaf. -/
def leaf? : Tree → Option Terminal
  | ⟨symbol, line, value, []⟩ => some ⟨symbol, value, line⟩
  | ⟨_, _, _, _ :: _⟩ => none

end Tree

/-- The nodes at these positions of a preorder are leaves and carry these terminals. No other node
has a value. -/
structure MatchedAt (nodes : List Tree) (positions : List Nat) (terminals : List Terminal) :
    Prop where
  increasing : positions.Pairwise (· < ·)
  leaves : positions.map (fun position => nodes[position]?.bind Tree.leaf?) = terminals.map some
  valued : ∀ position node, nodes[position]? = some node → node.value ≠ none →
    position ∈ positions

namespace MatchedAt
variable {nodes others : List Tree} {positions further : List Nat} {terminals more : List Terminal}

theorem nil : MatchedAt [] [] [] := ⟨.nil, rfl, by simp⟩

theorem leaf {node : Tree} {t : Terminal} (h : node.leaf? = some t) : MatchedAt [node] [0] [t] := by
  refine ⟨List.pairwise_singleton _ _, by simp [h], fun position other ho _ => ?_⟩
  have hlt := (List.getElem?_eq_some_iff.1 ho).1
  rw [List.length_singleton] at hlt
  rw [List.mem_singleton]
  omega

theorem unmatched {node : Tree} (h : node.value = none) : MatchedAt [node] [] [] := by
  refine ⟨.nil, rfl, fun position other ho hv => ?_⟩
  rw [List.mem_singleton.1 (List.mem_of_getElem? ho)] at hv
  exact absurd h hv

theorem lt_length (h : MatchedAt nodes positions terminals) {position : Nat}
    (hp : position ∈ positions) : position < nodes.length := by
  have hm : nodes[position]?.bind Tree.leaf? ∈ terminals.map some :=
    h.leaves ▸ List.mem_map_of_mem (f := fun position => nodes[position]?.bind Tree.leaf?) hp
  obtain ⟨t, -, ht⟩ := List.mem_map.1 hm
  obtain ⟨node, hn, -⟩ := Option.bind_eq_some_iff.1 ht.symm
  exact (List.getElem?_eq_some_iff.1 hn).1

theorem append (h : MatchedAt nodes positions terminals) (h' : MatchedAt others further more) :
    MatchedAt (nodes ++ others) (positions ++ further.map (nodes.length + ·))
      (terminals ++ more) where
  increasing := by
    refine List.pairwise_append.2 ⟨h.increasing, ?_, fun a ha b hb => ?_⟩
    · exact List.pairwise_map.2 (h'.increasing.imp fun hlt => Nat.add_lt_add_left hlt _)
    · obtain ⟨c, -, rfl⟩ := List.mem_map.1 hb
      exact Nat.lt_of_lt_of_le (h.lt_length ha) (Nat.le_add_right _ _)
  leaves := by
    rw [List.map_append, List.map_append, List.map_map, ← h.leaves, ← h'.leaves]
    refine congrArg₂ (· ++ ·) (List.map_congr_left fun position hp => ?_)
      (List.map_congr_left fun position hp => ?_)
    · rw [List.getElem?_append_left (h.lt_length hp)]
    · show (nodes ++ others)[nodes.length + position]?.bind Tree.leaf? = _
      rw [List.getElem?_append_right (Nat.le_add_right _ _), Nat.add_sub_cancel_left]
  valued position node hn hv := by
    by_cases hlt : position < nodes.length
    · rw [List.getElem?_append_left hlt] at hn
      exact List.mem_append_left _ (h.valued position node hn hv)
    · have hle := Nat.le_of_not_lt hlt
      rw [List.getElem?_append_right hle] at hn
      refine List.mem_append_right _ (List.mem_map.2 ⟨_, h'.valued _ node hn hv, ?_⟩)
      omega

end MatchedAt

/-! ## Matched leaves -/

namespace Tree

mutual

/-- The leaves that were matched carry these terminals, in order. No other node has a value. -/
inductive Matches : Tree → List Terminal → Prop
  | leaf (t : Terminal) : Matches ⟨t.symbol, t.line, t.value, []⟩ [t]
  | node {symbol : Symbol} {line : Nat} {children : List Tree} {terminals : List Terminal}
      (h : ForestMatches children terminals) : Matches ⟨symbol, line, none, children⟩ terminals

inductive ForestMatches : List Tree → List Terminal → Prop
  | nil : ForestMatches [] []
  | cons {tree : Tree} {trees : List Tree} {terminals more : List Terminal}
      (h : Matches tree terminals) (hr : ForestMatches trees more) :
      ForestMatches (tree :: trees) (terminals ++ more)

end

mutual

theorem Matches.exists_matchedAt : ∀ {tree : Tree} {terminals : List Terminal},
    tree.Matches terminals → ∃ positions, MatchedAt tree.nodes positions terminals
  | _, _, .leaf t => by
    rw [nodes, forestNodes]
    exact ⟨[0], .leaf rfl⟩
  | _, _, .node h => by
    obtain ⟨positions, hp⟩ := h.exists_matchedAt
    rw [nodes]
    exact ⟨_, (MatchedAt.unmatched rfl).append hp⟩

theorem ForestMatches.exists_matchedAt : ∀ {trees : List Tree} {terminals : List Terminal},
    ForestMatches trees terminals → ∃ positions, MatchedAt (forestNodes trees) positions terminals
  | _, _, .nil => ⟨[], .nil⟩
  | _, _, .cons h hr => by
    obtain ⟨positions, hp⟩ := h.exists_matchedAt
    obtain ⟨further, hf⟩ := hr.exists_matchedAt
    rw [forestNodes]
    exact ⟨_, hp.append hf⟩

end

theorem matches_bare (symbol : Symbol) (line : Nat) : (bare symbol line).Matches [] := .node .nil

theorem ForestMatches.append {trees others : List Tree} {terminals more : List Terminal} :
    ForestMatches trees terminals → ForestMatches others more →
      ForestMatches (trees ++ others) (terminals ++ more)
  | .nil, h' => h'
  | .cons h hr, h' => by
    rw [List.cons_append, List.append_assoc]
    exact .cons h (hr.append h')

theorem forestMatches_singleton {tree : Tree} {terminals : List Terminal}
    (h : tree.Matches terminals) : ForestMatches [tree] terminals := by
  have hcons := ForestMatches.cons h .nil
  rwa [List.append_nil] at hcons

theorem forestMatches_bare (symbols : List Symbol) :
    ForestMatches (symbols.map (bare · 0)) [] := by
  induction symbols with
  | nil => exact .nil
  | cons symbol symbols ih => exact .cons (matches_bare symbol 0) ih

end Tree

/-- What was matched inside the opened nodes, the outermost first. -/
inductive Path.Matches : Path → List Terminal → Prop
  | nil : Path.Matches [] []
  | cons {node : OpenNode} {path : Path} {terminals more : List Terminal}
      (hp : Path.Matches path terminals) (hd : Tree.ForestMatches node.done more) :
      Path.Matches (node :: path) (terminals ++ more)

namespace PartialTree

def Matches : PartialTree → List Terminal → Prop
  | complete tree, terminals => tree.Matches terminals
  | focused path _, terminals => path.Matches terminals

theorem matches_close {node : OpenNode} {trees : List Tree} {terminals more : List Terminal}
    (hd : Tree.ForestMatches node.done terminals) (ht : Tree.ForestMatches trees more) :
    (node.close trees).Matches (terminals ++ more) :=
  .node (hd.append ht)

theorem matches_fill {path : Path} {tree : Tree} {terminals more : List Terminal}
    (hp : path.Matches terminals) (ht : tree.Matches more) :
    (fill tree path).Matches (terminals ++ more) := by
  induction path generalizing tree terminals more with
  | nil =>
    cases hp
    exact ht
  | cons node path ih =>
    cases hp with
    | cons hp hd =>
      have htree := Tree.forestMatches_singleton ht
      unfold fill
      rw [List.append_assoc]
      split
      · exact ih hp (matches_close hd htree)
      · exact .cons hp (hd.append htree)

theorem matches_fill_bare {path : Path} {terminals : List Terminal} (hp : path.Matches terminals)
    (symbol : Symbol) (line : Nat) : (fill (.bare symbol line) path).Matches terminals := by
  have hfill := matches_fill hp (Tree.matches_bare symbol line)
  rwa [List.append_nil] at hfill

theorem matches_expand {path : Path} {terminals : List Terminal} (hp : path.Matches terminals)
    (symbol : Symbol) (line position : Nat) (production : List Symbol) :
    (expand path symbol line position production).Matches terminals := by
  cases production with
  | nil => exact matches_fill_bare hp symbol line
  | cons first waiting =>
    have hopen : Path.Matches (⟨symbol, line, position, [], waiting⟩ :: path) (terminals ++ []) :=
      .cons hp .nil
    rwa [List.append_nil] at hopen

theorem matches_assemble {path : Path} {tree : Tree} {terminals more : List Terminal}
    (hp : path.Matches terminals) (ht : tree.Matches more) :
    (assemble tree path).Matches (terminals ++ more) := by
  induction path generalizing tree terminals more with
  | nil =>
    cases hp
    exact ht
  | cons node path ih =>
    cases hp with
    | cons hp hd =>
      have hforest := Tree.ForestMatches.cons ht (Tree.forestMatches_bare node.waiting)
      rw [List.append_nil] at hforest
      rw [List.append_assoc]
      exact ih hp (matches_close hd hforest)

theorem matches_toTree {tree : PartialTree} {terminals : List Terminal}
    (h : tree.Matches terminals) : tree.toTree.Matches terminals := by
  cases tree with
  | complete tree => exact h
  | focused path focus =>
    cases path with
    | nil =>
      cases h
      exact Tree.matches_bare focus 1
    | cons node path =>
      have hassemble := matches_assemble h (Tree.matches_bare focus 0)
      rwa [List.append_nil] at hassemble

end PartialTree

/-! ## Accounts -/

/-- The terminals with this fate. -/
def withFate (fate : Fate) (used : List (Fate × Terminal)) : List Terminal :=
  used.filterMap fun entry => if entry.1 = fate then some entry.2 else none

/-- The line and the symbol of the terminal that was skipped, for the two complaints that skip
one. -/
def SyntaxError.skipped? (error : SyntaxError) : Option (Nat × Symbol) :=
  match error.fault with
  | .noEntry _ found | .mismatch _ found => some (error.line, found)
  | .synchronized .. | .cycle _ | .trailing _ => none

/-- Where a terminal is skipped there is a complaint about it, and nowhere else. -/
theorem skipped?_error? (event : Event) :
    event.error?.bind SyntaxError.skipped? =
      event.used?.bind fun entry =>
        if entry.1 = .skipped then some (entry.2.line, entry.2.symbol) else none := by
  obtain ⟨position, focus, next, action⟩ := event
  cases action <;> rfl

theorem skipped_eq (events : List Event) :
    (events.filterMap Event.error?).filterMap SyntaxError.skipped? =
      (withFate .skipped (events.filterMap Event.used?)).map fun t => (t.line, t.symbol) := by
  rw [withFate, List.filterMap_filterMap, List.filterMap_filterMap, List.map_filterMap]
  refine congrArg (events.filterMap ·) (funext fun event => ?_)
  rw [skipped?_error?, Option.map_bind]
  refine congrArg (event.used?.bind ·) (funext fun entry => ?_)
  show _ = Option.map _ (if entry.1 = Fate.skipped then some entry.2 else none)
  split <;> rfl

theorem not_trailing_of_error? {event : Event} {error : SyntaxError} (h : event.error? = some error)
    (found : Symbol) : error.fault ≠ .trailing found := by
  obtain ⟨fault, hf, rfl⟩ := Option.map_eq_some_iff.1 h
  obtain ⟨position, focus, next, action⟩ := event
  cases action <;> simp [Event.fault?] at hf <;> simp [← hf]

namespace ParseState
variable {g : PreparedGrammar} {terminals : List Terminal}

theorem withFate_before_concat (fate : Fate) (count : Nat) (events : List Event) (event : Event) :
    withFate fate ((before count (events ++ [event])).filterMap Event.used?) =
      withFate fate ((before count events).filterMap Event.used?) ++
        if event.position < count then withFate fate event.used?.toList else [] := by
  rw [before_concat, List.filterMap_append, withFate, List.filterMap_append]
  split
  · rw [filterMap_singleton]
    rfl
  · rfl

theorem matched_before_concat_of_ne (count : Nat) (events : List Event) {event : Event}
    (h : event.action ≠ .accept) :
    withFate .matched ((before count (events ++ [event])).filterMap Event.used?) =
      withFate .matched ((before count events).filterMap Event.used?) := by
  have hnone : withFate .matched event.used?.toList = [] := by
    obtain ⟨position, focus, next, action⟩ := event
    cases action with
    | accept => exact absurd rfl h
    | _ => rfl
  rw [withFate_before_concat, hnone, ite_self, List.append_nil]

/-- The tree holds the terminals before the end marker that were matched. The end marker has no
value, so a leaf that was matched with it does not matter. -/
theorem History.matches_tree {t : ParseState} {events : List Event}
    (h : History g (ofTerminals g terminals) events t) :
    t.tree.Matches
      (withFate .matched ((before terminals.length events).filterMap Event.used?)) := by
  induction h with
  | start => exact .nil
  | @step events t path focus next rest action hhistory htree hinput hchosen ih =>
    rw [htree] at ih
    have hbare := PartialTree.matches_fill_bare ih focus next.line
    cases hchosen with
    | expand =>
      rw [matched_before_concat_of_ne _ _ (by simp)]
      exact PartialTree.matches_expand ih focus next.line t.position _
    | cut | synch | vanish | replace =>
      rw [matched_before_concat_of_ne _ _ (by simp)]
      exact hbare
    | skip =>
      rw [matched_before_concat_of_ne _ _ (by simp)]
      show t.tree.Matches _
      rw [htree]
      exact ih
    | accept _ _ hfound =>
      subst hfound
      rw [withFate_before_concat]
      show (PartialTree.fill ⟨next.symbol, next.line, next.value, []⟩ path).Matches _
      by_cases hp : t.position < terminals.length
      · rw [if_pos hp]
        exact PartialTree.matches_fill ih (.leaf next)
      · rw [if_neg hp, List.append_nil, hhistory.value_eq_none hinput (Nat.le_of_not_lt hp)]
        exact PartialTree.matches_fill_bare ih next.symbol next.line

theorem trailing_eq_nil {s : ParseState} (h : s.input.length ≤ 1) : s.trailing = [] := by
  unfold trailing
  split
  · rename_i hinput
    rw [hinput] at h
    simp at h
  · rfl

/-- A parse that stops in front of a terminal and not at the end marker has completed its tree. -/
theorem trailing_of_final {s : ParseState} (hfinal : s.step? g = none) {next other : Terminal}
    {rest : List Terminal} (hinput : s.input = next :: other :: rest) :
    s.trailing = [⟨next.line, .trailing next.symbol⟩] := by
  cases htree : s.tree with
  | complete tree => rw [trailing, htree, hinput]
  | focused path focus =>
    rw [step?_of_focused htree hinput] at hfinal
    exact absurd hfinal (by simp)

/-- The parse ends with a complaint about the first terminal that is left, if one is left. -/
theorem trailing_eq {final : ParseState} (hfinal : final.step? g = none)
    (hinput : final.input = (ofTerminals g terminals).input.drop final.position) :
    final.trailing = (terminals[min final.position terminals.length]?.map fun t =>
      ⟨t.line, .trailing t.symbol⟩).toList := by
  have hlength := congrArg List.length hinput
  rw [ofTerminals, List.length_drop, List.length_append, List.length_singleton] at hlength
  by_cases hp : final.position < terminals.length
  · rw [Nat.min_eq_left (Nat.le_of_lt hp), List.getElem?_eq_getElem hp]
    obtain ⟨next, rest, hnext⟩ := List.exists_cons_of_length_pos (l := final.input) (by omega)
    rw [hnext, List.length_cons] at hlength
    obtain ⟨other, rest, rfl⟩ := List.exists_cons_of_length_pos (l := rest) (by omega)
    have hget := congrArg List.head? hinput
    rw [hnext, List.head?_drop, ofTerminals, List.getElem?_append_left hp,
      List.getElem?_eq_getElem hp] at hget
    rw [trailing_of_final hfinal hnext, Option.some.inj hget]
    rfl
  · rw [Nat.min_eq_right (Nat.le_of_not_lt hp), List.getElem?_eq_none (Nat.le_refl _)]
    exact trailing_eq_nil (by omega)

end ParseState

/-- Of the terminals that a parse uses before the end marker, each is matched or skipped. The skipped
ones are, in order, those of the complaints that skip something; the matched ones are, in order,
those of some leaves of the tree, and no other node has a value. If terminals are left, there is one
more complaint at the end, about the first of these. -/
theorem terminals_accounted (g : PreparedGrammar) (terminals : List Terminal) :
    ∃ events, ParseState.History g (.ofTerminals g terminals) events
        ((ParseState.ofTerminals g terminals).run g) ∧
      ∃ used : List (Fate × Terminal),
        used.length = (parse g terminals).consumed ∧
        used.map (·.2) = terminals.take (parse g terminals).consumed ∧
        (∀ event ∈ ParseState.before terminals.length events,
          terminals[event.position]? = some event.next) ∧
        ((ParseState.before terminals.length events).filterMap Event.error?).filterMap
            SyntaxError.skipped? =
          (withFate .skipped used).map (fun t => (t.line, t.symbol)) ∧
        (∃ positions, MatchedAt (parse g terminals).tree.nodes positions
          (withFate .matched used)) ∧
        (parse g terminals).errors = events.filterMap Event.error? ++
          (terminals[(parse g terminals).consumed]?.map fun t =>
            ⟨t.line, .trailing t.symbol⟩).toList ∧
        ∀ error ∈ events.filterMap Event.error?, ∀ found, error.fault ≠ .trailing found := by
  obtain ⟨events, hhistory, hfinal⟩ :=
    ParseState.exists_history_run (g := g) (.ofTerminals g terminals)
  have hused := hhistory.used_eq
  have htake : terminals.take ((ParseState.ofTerminals g terminals).run g).position =
      terminals.take (parse g terminals).consumed := by
    rw [parse, ← List.take_eq_take_min]
  rw [htake] at hused
  refine ⟨events, hhistory, _, ?_, hused, fun event => hhistory.getElem?_of_mem_before,
    skipped_eq _, ?_, ?_, ?_⟩
  · have hlength := congrArg List.length hused
    rw [List.length_map, List.length_take] at hlength
    exact hlength.trans (Nat.min_eq_left (Nat.min_le_right ..))
  · exact (PartialTree.matches_toTree hhistory.matches_tree).exists_matchedAt
  · have herrors := hhistory.errors_eq
    show ((ParseState.ofTerminals g terminals).run g).errors ++
      ((ParseState.ofTerminals g terminals).run g).trailing = _
    rw [herrors, ParseState.trailing_eq hfinal hhistory.input_eq]
    rfl
  · intro error he
    obtain ⟨event, -, herror⟩ := List.mem_filterMap.1 he
    exact not_trailing_of_error? herror

end FrontEnd
