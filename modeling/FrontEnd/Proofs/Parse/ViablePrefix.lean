import FrontEnd.Proofs.Grammar.Leftmost
import FrontEnd.Proofs.Parse.Cycle

/-! # Errors are found at once

Up to the first error, the terminals that were used and the symbols that are pending make up a text
that the start symbol derives. Without conflicts, what is pending derives the rest of every such
text that goes on with the next terminal, so there is no error before the input leaves all these
texts.

* `PartialTree.pending`: the symbols that are still to be derived.
* `ParseState.LeadsTo`: they derive the rest of a text.
* `Path.Promises`: this rest goes on with the next terminal, so the table has an entry for it.
* `ParseState.leadsTo_step?`: then a step makes no error and the pending symbols still lead on.
* `ParseState.FirstErrorAt`: the position at which a parse makes its first error.
* `first_error_earliest`: no earlier and no later one would be right.
-/

namespace FrontEnd
set_option autoImplicit false

/-! ## Pending symbols -/

/-- What waits in the opened nodes, the innermost first. -/
def Path.pending : Path → List Symbol
  | [] => []
  | node :: path => node.waiting ++ pending path

namespace PartialTree

def pending : PartialTree → List Symbol
  | complete _ => []
  | focused path focus => focus :: path.pending

theorem pending_fill (tree : Tree) (path : Path) : (fill tree path).pending = path.pending := by
  induction path generalizing tree with
  | nil => rfl
  | cons node path ih =>
    unfold fill
    split
    · rename_i hw
      rw [ih, Path.pending, hw, List.nil_append]
    · rename_i next waiting hw
      rw [pending, Path.pending, Path.pending, hw]
      rfl

theorem pending_expand (path : Path) (symbol : Symbol) (line position : Nat)
    (production : List Symbol) :
    (expand path symbol line position production).pending = production ++ path.pending := by
  cases production with
  | nil => exact pending_fill _ path
  | cons first waiting => rfl

end PartialTree

theorem Path.isTerminal_of_mem_leaves {g : Grammar} {path : Path} {t : Terminal}
    (h : t ∈ path.leaves g) : g.isTerminal t.symbol = true := by
  induction path with
  | nil => exact absurd h (by simp [leaves])
  | cons node path ih =>
    rw [leaves, List.mem_append, Tree.mem_forestLeaves] at h
    rcases h with h | ⟨tree, -, h⟩
    · exact ih h
    · exact Tree.isTerminal_of_mem_leaves h

theorem PartialTree.isTerminal_of_mem_leaves {g : Grammar} {tree : PartialTree} {t : Terminal}
    (h : t ∈ tree.leaves g) : g.isTerminal t.symbol = true := by
  cases tree with
  | complete tree => exact Tree.isTerminal_of_mem_leaves h
  | focused path focus => exact Path.isTerminal_of_mem_leaves h

section
variable {g : Grammar} (hε : g.isNonterminal epsilon = false)
include hε

/-- The leaves so far and the pending symbols are a text that the start symbol derives. -/
theorem Path.Derives.derives {path : Path} {focus : Symbol} (h : path.Derives g focus) :
    FrontEnd.Derives g.rules [g.start]
      ((path.leaves g).map (·.symbol) ++ focus :: path.pending) := by
  induction h with
  | root => exact .refl _
  | @inside node path rule focus hr _ hs hd _ ih =>
    have hdone := Tree.derives_forestWord fun tree hm => (hd tree hm).derives hε
    have hleft := derives_production hr (Grammar.isNonterminal_eq_false_iff.1 hε rule hr)
    rw [← hs] at hleft
    have hnode := (hleft.trans (hdone.append (.refl _))).around ((path.leaves g).map (·.symbol))
      path.pending
    rw [Path.leaves, Path.pending, List.map_append]
    simpa [Tree.forestWord] using ih.trans hnode

theorem PartialTree.Derives.derives {tree : PartialTree} (h : tree.Derives g) :
    FrontEnd.Derives g.rules [g.start]
      ((tree.leaves g).map (·.symbol) ++ tree.pending) := by
  cases tree with
  | focused path focus => exact Path.Derives.derives hε h
  | complete tree =>
    rw [PartialTree.pending, List.append_nil, ← h.2]
    exact h.1.derives hε

end

/-! ## Looking ahead -/

/-- The text goes on with the input up to and including position `k` or, if the input ends there, is
the whole input. -/
structure Continues (input : List Symbol) (k : Nat) (text : List Symbol) : Prop where
  take : input.take (k + 1) <+: text
  whole : input.length ≤ k → text = input

/-- Up to position `k` both go on with the same symbol. -/
theorem Continues.head?_eq {before after ahead : List Symbol} {k : Nat}
    (h : Continues (before ++ after) k (before ++ ahead)) (hk : before.length ≤ k) :
    ahead.head? = after.head? := by
  cases after with
  | nil =>
    have hwhole : before ++ ahead = before ++ [] := h.whole (by simpa using hk)
    rw [List.append_cancel_left hwhole]
  | cons t after =>
    obtain ⟨m, hm⟩ : ∃ m, k + 1 - before.length = m + 1 := ⟨k - before.length, by omega⟩
    have htake := h.take
    rw [List.take_append, List.take_of_length_le (by omega), hm, List.take_succ_cons,
      List.prefix_append_right_inj] at htake
    obtain ⟨rest, rfl⟩ := htake
    rfl

/-- What is pending derives `ahead`, which starts with `t`; at its end the end marker comes next. -/
structure Path.Promises (g : Grammar) (path : Path) (focus t : Symbol) (ahead : List Symbol) :
    Prop where
  start : ∃ front, FrontEnd.Derives g.rules [g.start] (front ++ focus :: path.pending)
  derives : FrontEnd.Derives g.rules (focus :: path.pending) ahead
  noEpsilon : epsilon ∉ ahead
  head : (ahead ++ [endMarker]).head? = some t
  terminal : ahead ≠ [] → g.isTerminal t = true

namespace Path.Promises
variable {g : Grammar} {path : Path} {focus t : Symbol} {ahead : List Symbol}
  (h : path.Promises g focus t ahead)
include h

theorem exists_rule (hε : ∀ rule ∈ g.rules, rule.left ≠ epsilon)
    (hn : g.isNonterminal focus = true) :
    ∃ rule ∈ g.rules, rule.left = focus ∧ t ∈ g.select rule ∧
      FrontEnd.Derives g.rules (rule.production ++ path.pending) ahead := by
  obtain ⟨front, hstart⟩ := h.start
  exact Grammar.exists_rule_of_derives hε hn hstart h.derives h.noEpsilon h.head h.terminal

/-- The table has the rule that leads on. -/
theorem exists_cell? (hg : g.table.conflicts = []) (hε : ∀ rule ∈ g.rules, rule.left ≠ epsilon)
    (hn : g.isNonterminal focus = true) :
    ∃ index, g.table.cell? focus t = some (.expand index) ∧
      FrontEnd.Derives g.rules (g.production index ++ path.pending) ahead := by
  obtain ⟨rule, hr, rfl, ht, hd⟩ := h.exists_rule hε hn
  obtain ⟨index, hindex⟩ := List.getElem?_of_mem hr
  refine ⟨index, Grammar.cell?_of_mem_select hg hindex ht, ?_⟩
  rwa [Grammar.production_of_getElem? hindex]

theorem of_epsilon (hfocus : focus = epsilon) : FrontEnd.Derives g.rules path.pending ahead := by
  subst hfocus
  exact h.derives.of_epsilon h.noEpsilon

theorem of_terminal (hn : g.isNonterminal focus = false) (hε : focus ≠ epsilon) :
    focus = t ∧ ∃ more, ahead = t :: more ∧ FrontEnd.Derives g.rules path.pending more := by
  have hword : IsWord g.rules [focus] := by
    intro symbol hs
    rw [List.mem_singleton.1 hs]
    exact ⟨hε, Grammar.isNonterminal_eq_false_iff.1 hn⟩
  obtain ⟨more, rfl, hd⟩ := h.derives.of_terminal hword
  obtain rfl : focus = t := by simpa using h.head
  exact ⟨rfl, more, rfl, hd⟩

end Path.Promises

/-! ## Steps -/

namespace ParseState
variable {g : PreparedGrammar}

/-- What is pending derives the rest of the text, behind the terminals that were used. -/
def LeadsTo (g : PreparedGrammar) (text : List Symbol) (s : ParseState) : Prop :=
  ∃ ahead, (s.tree.leaves g.normalized).map (·.symbol) ++ ahead = text ∧
    Derives g.normalized.rules s.tree.pending ahead

/-- Without errors so far, the terminals that were used and what is left of the input make up the
input. -/
theorem Faithful.exists_rest {terminals : List Terminal} {last : Terminal} {s : ParseState}
    (h : s.Faithful g (terminals ++ [last])) (he : s.errors = []) (hi : s.input ≠ []) :
    ∃ rest, terminals = s.tree.leaves g.normalized ++ rest ∧ s.input = rest ++ [last] ∧
      (s.tree.leaves g.normalized).length = s.position := by
  obtain ⟨hlength, hd⟩ := h
  obtain ⟨-, hl⟩ := hd he
  obtain ⟨rest, x, hrest⟩ := (List.eq_nil_or_concat s.input).resolve_left hi
  rw [List.concat_eq_append] at hrest
  rw [hrest, ← List.append_assoc] at hl
  obtain ⟨hterminals, hx⟩ := List.append_inj' hl rfl
  refine ⟨rest, hterminals.symm, by rw [hrest, List.cons.inj hx |>.1], ?_⟩
  rw [← hl, hrest] at hlength
  simp only [List.length_append, List.length_singleton] at hlength
  omega

section
variable (hg : g.table = g.normalized.table) (hconflicts : g.table.conflicts = [])
  (hε : ∀ rule ∈ g.normalized.rules, rule.left ≠ epsilon) {terminals : List Terminal}
  {last : Terminal} (hlast : last.symbol = endMarker)
  (hterminals : ∀ t ∈ terminals, g.normalized.isNonterminal t.symbol = false)
  {text : List Symbol} {k : Nat} (htext : epsilon ∉ text)
  (hcontinues : Continues (terminals.map (·.symbol)) k text)

include hε hlast hterminals htext hcontinues in
/-- Up to position `k` the rest of the text starts with the next terminal. -/
theorem exists_promises {path : Path} {focus : Symbol} {next : Terminal} {rest : List Terminal}
    {position : Nat} (hposition : position ≤ k)
    (hs : Faithful g (terminals ++ [last]) ⟨.focused path focus, next :: rest, position, []⟩)
    (hlead : LeadsTo g text ⟨.focused path focus, next :: rest, position, []⟩) :
    ∃ ahead, (path.leaves g.normalized).map (·.symbol) ++ ahead = text ∧
      path.Promises g.normalized focus next.symbol ahead := by
  obtain ⟨ahead, rfl, hd⟩ := hlead
  obtain ⟨after, rfl, hinput, hlength⟩ := hs.exists_rest rfl (by simp)
  have hstart := (hs.2 rfl).1.derives (Grammar.isNonterminal_eq_false_iff.2 hε)
  have hahead : epsilon ∉ ahead := fun hm => htext (List.mem_append_right _ hm)
  rw [List.map_append] at hcontinues
  have hhead : ahead.head? = (after.map (·.symbol)).head? :=
    hcontinues.head?_eq (by rw [List.length_map]; exact hlength ▸ hposition)
  refine ⟨ahead, rfl, ⟨_, hstart⟩, hd, hahead, ?_, fun hne => ?_⟩
  · cases after with
    | nil =>
      obtain ⟨rfl, -⟩ := List.cons.inj hinput
      rw [List.head?_append, hhead, hlast]
      rfl
    | cons t after =>
      obtain ⟨rfl, -⟩ := List.cons.inj hinput
      rw [List.head?_append, hhead]
      rfl
  · cases after with
    | nil => exact absurd (List.head?_eq_none_iff.1 hhead) hne
    | cons t after =>
      obtain ⟨rfl, -⟩ := List.cons.inj hinput
      have hm : next.symbol ∈ ahead := List.mem_of_head? (by rw [hhead]; rfl)
      have hn : next.symbol ≠ epsilon := fun he => hahead (he ▸ hm)
      simp [Grammar.isTerminal, hn, hterminals next (by simp)]

include hg hconflicts hε hlast hterminals htext hcontinues in
/-- A text that goes on with the input keeps the parser from an error. -/
theorem leadsTo_step? {s t : ParseState} (h : s.step? g = some t)
    (hs : s.Faithful g (terminals ++ [last])) (hx : s.Expects g) (he : s.errors = [])
    (hposition : s.position ≤ k) (hlead : s.LeadsTo g text) :
    t.errors = [] ∧ t.LeadsTo g text := by
  have ht := faithful_step? hg h hs
  obtain ⟨path, focus, next, rest, action, htree, hinput, hchosen, rfl⟩ :=
    exists_chosen_of_step? h
  obtain ⟨tree, input, position, errors⟩ := s
  obtain rfl : tree = .focused path focus := htree
  obtain rfl : input = next :: rest := hinput
  obtain rfl : errors = [] := he
  have hne := hchosen.ne_cut hg hconflicts hε (hx next rest rfl)
  obtain ⟨ahead, rfl, hahead⟩ :=
    exists_promises hε hlast hterminals htext hcontinues hposition hs hlead
  have hall := (hs.2 rfl).2
  rw [hg] at hconflicts
  cases hchosen with
  | cut => exact absurd rfl hne
  | @expand index hn hc =>
    obtain ⟨other, hcell, hd⟩ := hahead.exists_cell? hconflicts hε hn
    rw [hg, hcell] at hc
    obtain rfl : other = index := by simpa using hc
    have hleaves := List.append_cancel_right ((ht.2 rfl).2.trans hall.symm)
    refine ⟨rfl, ahead, by rw [hleaves]; rfl, ?_⟩
    rwa [apply, PartialTree.pending_expand]
  | synch hn hc =>
    obtain ⟨index, hcell, -⟩ := hahead.exists_cell? hconflicts hε hn
    rw [hg, hcell] at hc
    exact absurd hc (by simp)
  | skip hn hc =>
    obtain ⟨index, hcell, -⟩ := hahead.exists_cell? hconflicts hε hn
    rw [hg, hcell] at hc
    exact absurd hc (by simp)
  | vanish hn hfocus =>
    have hleaves := List.append_cancel_right ((ht.2 rfl).2.trans hall.symm)
    refine ⟨rfl, ahead, by rw [hleaves]; rfl, ?_⟩
    rw [apply, finish, PartialTree.pending_fill]
    exact hahead.of_epsilon hfocus
  | accept hn hfocus =>
    obtain ⟨-, more, rfl, hd⟩ := hahead.of_terminal hn hfocus
    have hleaves : (path.leaves g.normalized ++ [next]) ++ rest = terminals ++ [last] := by
      rw [List.append_assoc]
      exact hall
    have hleaves := List.append_cancel_right ((ht.2 rfl).2.trans hleaves.symm)
    refine ⟨rfl, more, ?_, ?_⟩
    · rw [hleaves, List.map_append, List.append_assoc]
      rfl
    · rw [apply, finish, advance, PartialTree.pending_fill]
      exact hd
  | replace hn hfocus hfound => exact absurd (hahead.of_terminal hn hfocus).1 hfound

end

/-! ## The first error -/

/-- There is no error so far, and the next step makes one or, if there is no step, the end does. -/
def ErrsNext (g : PreparedGrammar) (s : ParseState) : Prop :=
  s.errors = [] ∧
    match s.step? g with
    | some t => t.errors ≠ []
    | none => s.trailing ≠ []

/-- The first error of a parse is made at position `k` of the input. -/
def FirstErrorAt (g : PreparedGrammar) (terminals : List Terminal) (k : Nat) : Prop :=
  ∃ n s, Runs g n (ofTerminals g terminals) s ∧ s.ErrsNext g ∧ s.position = k

theorem grows_step? {s t : ParseState} (h : s.step? g = some t) :
    s.errors <+: t.errors ∧ s.position ≤ t.position := by
  obtain ⟨path, focus, next, rest, action, -, -, -, rfl⟩ := exists_chosen_of_step? h
  cases action <;> simp [apply, finish, advance, addError]

theorem Runs.errors_prefix {n : Nat} {s t : ParseState} (h : Runs g n s t) :
    s.errors <+: t.errors := by
  induction h with
  | refl s => exact List.prefix_rfl
  | step h _ ih => exact (grows_step? h).1.trans ih

/-- Two runs from one state go the same way. -/
theorem Runs.total {n m : Nat} {s t u : ParseState} (h : Runs g n s t) (h' : Runs g m s u) :
    (∃ i, Runs g i t u) ∨ ∃ i, Runs g i u t := by
  induction h generalizing m u with
  | refl s => exact Or.inl ⟨m, h'⟩
  | step hs hr ih =>
    cases h' with
    | refl => exact Or.inr ⟨_, .step hs hr⟩
    | step hs' hr' =>
      obtain rfl := Option.some.inj (hs.symm.trans hs')
      exact ih hr'

theorem ErrsNext.eq_of_runs {n : Nat} {s t : ParseState} (hs : s.ErrsNext g) (h : Runs g n s t)
    (ht : t.errors = []) : t = s := by
  cases h with
  | refl => rfl
  | step hstep hr =>
    have herrors := hs.2
    rw [hstep] at herrors
    have hprefix := hr.errors_prefix
    rw [ht] at hprefix
    exact absurd (List.prefix_nil.1 hprefix) herrors

theorem FirstErrorAt.eq {terminals : List Terminal} {k k' : Nat}
    (h : FirstErrorAt g terminals k) (h' : FirstErrorAt g terminals k') : k' = k := by
  obtain ⟨n, s, hr, hs, rfl⟩ := h
  obtain ⟨n', s', hr', hs', rfl⟩ := h'
  rcases hr.total hr' with ⟨i, h⟩ | ⟨i, h⟩
  · rw [hs.eq_of_runs h hs'.1]
  · rw [hs'.eq_of_runs h hs.1]

theorem Runs.exists_errsNext {n : Nat} {s t : ParseState} (h : Runs g n s t)
    (hs : s.errors = []) (ht : t.step? g = none) (herrors : t.errors ++ t.trailing ≠ []) :
    ∃ m r, Runs g m s r ∧ r.ErrsNext g := by
  induction h with
  | refl s =>
    refine ⟨0, s, .refl s, hs, ?_⟩
    rw [hs, List.nil_append] at herrors
    rw [ht]
    exact herrors
  | @step n s t u hstep _ ih =>
    by_cases he : t.errors = []
    · obtain ⟨m, r, hr, hnext⟩ := ih he ht herrors
      exact ⟨m + 1, r, .step hstep hr, hnext⟩
    · refine ⟨0, s, .refl s, hs, ?_⟩
      rw [hstep]
      exact he

theorem exists_firstErrorAt {terminals : List Terminal} (h : (parse g terminals).errors ≠ []) :
    ∃ n s, Runs g n (ofTerminals g terminals) s ∧ s.ErrsNext g := by
  obtain ⟨n, hr, hfinal⟩ := exists_runs_run (g := g) (ofTerminals g terminals)
  exact hr.exists_errsNext rfl hfinal h

/-- Some input is left at the first error. -/
theorem ErrsNext.input_ne_nil {s : ParseState} (h : s.ErrsNext g) : s.input ≠ [] := by
  obtain ⟨tree, input, position, errors⟩ := s
  rintro rfl
  have herrors := h.2
  cases tree <;> exact herrors rfl

/-! ## It is neither late nor early -/

/-- Without errors so far, a text that the start symbol derives begins with what was used. -/
theorem Faithful.exists_sententialForm (hε : ∀ rule ∈ g.normalized.rules, rule.left ≠ epsilon)
    {terminals : List Terminal} {last : Terminal} {s : ParseState}
    (h : s.Faithful g (terminals ++ [last])) (he : s.errors = []) (hi : s.input ≠ []) :
    ∃ rest, g.normalized.SententialForm
      ((terminals.map (·.symbol)).take s.position ++ rest) := by
  obtain ⟨after, hterminals, -, hlength⟩ := h.exists_rest he hi
  have htake : (terminals.map (·.symbol)).take s.position =
      (s.tree.leaves g.normalized).map (·.symbol) := by
    rw [hterminals, List.map_append, ← hlength]
    exact List.take_left' (List.length_map _)
  have hd := (h.2 he).1.derives (Grammar.isNonterminal_eq_false_iff.2 hε)
  refine ⟨s.tree.pending.filter (· != epsilon), _, hd, ?_⟩
  rw [htake, List.filter_append]
  refine congrArg (· ++ _) (List.filter_eq_self.2 fun symbol hm => ?_)
  obtain ⟨leaf, hleaf, rfl⟩ := List.mem_map.1 hm
  simpa using Grammar.isTerminal_ne_epsilon (PartialTree.isTerminal_of_mem_leaves hleaf)

section
variable (hg : g.table = g.normalized.table) (hconflicts : g.table.conflicts = [])
  (hε : ∀ rule ∈ g.normalized.rules, rule.left ≠ epsilon) {terminals : List Terminal}
  (hterminals : ∀ t ∈ terminals, g.normalized.isNonterminal t.symbol = false)
  {text : List Symbol} (hderives : Derives g.normalized.rules [g.normalized.start] text)
  (htext : epsilon ∉ text)
include hg hconflicts hε hterminals hderives htext

/-- As long as a text that the start symbol derives goes on with the input, there is no error and
the pending symbols lead through the text. -/
theorem leadsTo_of_runs {last : Terminal} (hlast : last.symbol = endMarker) {k : Nat}
    (hcontinues : Continues (terminals.map (·.symbol)) k text) {n : Nat} {s : ParseState}
    (h : Runs g n (ofTerminals g terminals) s)
    (hfaithful : (ofTerminals g terminals).Faithful g (terminals ++ [last])) :
    s.Faithful g (terminals ++ [last]) ∧ s.Expects g ∧
      (s.position ≤ k → s.errors = [] ∧ s.LeadsTo g text) := by
  refine h.preserves (P := fun s => s.Faithful g (terminals ++ [last]) ∧ s.Expects g ∧
    (s.position ≤ k → s.errors = [] ∧ s.LeadsTo g text)) ?_
    ⟨hfaithful, expects_ofTerminals g terminals, fun _ => ⟨rfl, text, rfl, hderives⟩⟩
  intro s t hstep ⟨hs, hx, hlead⟩
  refine ⟨faithful_step? hg hstep hs, expects_step? hg hconflicts hε hstep hx, fun ht => ?_⟩
  have hposition := Nat.le_trans (grows_step? hstep).2 ht
  obtain ⟨he, hlead⟩ := hlead hposition
  exact leadsTo_step? hg hconflicts hε hlast hterminals htext hcontinues hstep hs hx he hposition
    hlead

/-- No text that the start symbol derives goes on with the input at the first error. -/
theorem ErrsNext.not_continues {n : Nat} {s : ParseState}
    (h : Runs g n (ofTerminals g terminals) s) (hs : s.ErrsNext g) :
    ¬Continues (terminals.map (·.symbol)) s.position text := by
  intro hcontinues
  obtain ⟨last, hlast, hfaithful⟩ := exists_faithful_ofTerminals g terminals
  obtain ⟨hf, hx, hlead⟩ :=
    leadsTo_of_runs hg hconflicts hε hterminals hderives htext hlast hcontinues h hfaithful
  obtain ⟨he, hlead⟩ := hlead (Nat.le_refl _)
  have herrors := hs.2
  cases hstep : s.step? g with
  | some t =>
    rw [hstep] at herrors
    exact herrors (leadsTo_step? hg hconflicts hε hlast hterminals htext hcontinues hstep hf hx he
      (Nat.le_refl _) hlead).1
  | none =>
    rw [hstep] at herrors
    obtain ⟨after, rfl, hinput, hlength⟩ := hf.exists_rest he hs.input_ne_nil
    obtain ⟨ahead, rfl, hahead⟩ := hlead
    obtain ⟨tree, input, position, errors⟩ := s
    dsimp only at hinput hlength
    subst hinput
    cases tree with
    | focused path focus => cases after <;> exact herrors rfl
    | complete tree =>
      -- Nothing is pending, but the input goes on.
      obtain rfl : ahead = [] := hahead.eq_of_isWord fun _ hm => by simp [PartialTree.pending] at hm
      rw [List.map_append] at hcontinues
      have hhead := hcontinues.head?_eq (by rw [List.length_map]; exact Nat.le_of_eq hlength)
      cases after with
      | nil => exact herrors rfl
      | cons t after => exact absurd hhead (by simp)

end

end ParseState

/-- Without conflicts the first error of a parse is at the first terminal with which no text that
the start symbol derives goes on, or at the end if the whole input is only the beginning of one. -/
theorem first_error_earliest (source : Grammar)
    (hconflicts : (PreparedGrammar.ofGrammar source).table.conflicts = [])
    (hε : ∀ rule ∈ (PreparedGrammar.ofGrammar source).normalized.rules, rule.left ≠ epsilon)
    (terminals : List Terminal)
    (hterminals : ∀ t ∈ terminals,
      (PreparedGrammar.ofGrammar source).normalized.isNonterminal t.symbol = false)
    (herrors : (parse (.ofGrammar source) terminals).errors ≠ []) :
    ∃ k, ParseState.FirstErrorAt (.ofGrammar source) terminals k ∧
      (∀ other, ParseState.FirstErrorAt (.ofGrammar source) terminals other → other = k) ∧
      k ≤ terminals.length ∧
      (∃ rest, (PreparedGrammar.ofGrammar source).normalized.SententialForm
        ((terminals.map (·.symbol)).take k ++ rest)) ∧
      (k < terminals.length → ∀ rest,
        ¬(PreparedGrammar.ofGrammar source).normalized.SententialForm
          ((terminals.map (·.symbol)).take (k + 1) ++ rest)) ∧
      (k = terminals.length →
        ¬(PreparedGrammar.ofGrammar source).normalized.SententialForm
          (terminals.map (·.symbol))) := by
  obtain ⟨n, s, hruns, hs⟩ := ParseState.exists_firstErrorAt herrors
  obtain ⟨last, -, hinit⟩ := ParseState.exists_faithful_ofTerminals (.ofGrammar source) terminals
  have hfaithful := hruns.preserves (fun s t => ParseState.faithful_step? rfl) hinit
  have hfirst : ParseState.FirstErrorAt (.ofGrammar source) terminals s.position :=
    ⟨n, s, hruns, hs, rfl⟩
  refine ⟨s.position, hfirst, fun other => hfirst.eq, ?_,
    hfaithful.exists_sententialForm hε hs.1 hs.input_ne_nil, fun hk rest hrest => ?_,
    fun hk hwhole => ?_⟩
  · have hlength := hfaithful.1
    have hinput := List.length_pos_iff.2 hs.input_ne_nil
    rw [List.length_append, List.length_singleton] at hlength
    omega
  · obtain ⟨hderives, htext⟩ := Grammar.sententialForm_iff.1 hrest
    refine hs.not_continues rfl hconflicts hε hterminals hderives htext hruns
      ⟨List.prefix_append _ _, fun hle => ?_⟩
    rw [List.length_map] at hle
    omega
  · obtain ⟨hderives, htext⟩ := Grammar.sententialForm_iff.1 hwhole
    exact hs.not_continues rfl hconflicts hε hterminals hderives htext hruns
      ⟨List.take_prefix _ _, fun _ => rfl⟩

theorem first_error_earliest_doubledPlus :
    (parse (.ofGrammar .sums) [⟨"x", none, 1⟩, ⟨"+", none, 1⟩, ⟨"+", none, 1⟩]).errors ≠ [] ∧
      ∃ k, ParseState.FirstErrorAt (.ofGrammar .sums)
          [⟨"x", none, 1⟩, ⟨"+", none, 1⟩, ⟨"+", none, 1⟩] k ∧
        ∃ rest, (PreparedGrammar.ofGrammar .sums).normalized.SententialForm
          (["x", "+", "+"].take k ++ rest) := by
  have hterminals : ∀ t ∈ ([⟨"x", none, 1⟩, ⟨"+", none, 1⟩, ⟨"+", none, 1⟩] : List Terminal),
      (PreparedGrammar.ofGrammar .sums).normalized.isNonterminal t.symbol = false := by
    decide +kernel
  have herrors : (parse (.ofGrammar .sums)
      [⟨"x", none, 1⟩, ⟨"+", none, 1⟩, ⟨"+", none, 1⟩]).errors ≠ [] := by
    decide +kernel
  obtain ⟨k, hfirst, -, -, hrest, -⟩ :=
    first_error_earliest .sums (by decide +kernel) left_ne_epsilon_sums _ hterminals herrors
  exact ⟨herrors, k, hfirst, hrest⟩

end FrontEnd
