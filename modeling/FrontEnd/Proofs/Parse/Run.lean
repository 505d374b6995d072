import FrontEnd.Parse.Outcome
import FrontEnd.Proofs.Grammar.Prediction
import Mathlib.Algebra.Group.Nat.Defs

/-! # Runs of the parser

* `Action.choose_expand`, `Action.choose_vanish`, `Action.choose_accept`: when the parser goes on
  without an error.
* `Action.Chosen`: when it takes which action.
* `ParseState.Runs`: an exact number of steps leads from one state to another.
* `ParseState.exists_runs_run`: `run` makes finitely many steps and ends where there is none left.
* `ParseState.Runs.add_weight_le`: no run is longer than the weight of the state it starts in.
* `parse_terminates`: how long a parse can take, and that it only uses rules of the grammar.
-/

namespace FrontEnd
set_option autoImplicit false

/-! ## Choices -/

namespace Action
variable {g : PreparedGrammar} {path : Path} {focus : Symbol} {position : Nat}

theorem choose_expand {found : Symbol} {index : Nat}
    (hn : g.normalized.isNonterminal focus = true)
    (hc : g.table.cell? focus found = some (.expand index))
    (hr : path.reopens focus position = false) :
    choose g path focus position found = expand index := by
  rw [choose, if_pos hn, hc]
  dsimp only
  rw [hr]
  exact if_neg (by simp)

theorem choose_vanish (hn : g.normalized.isNonterminal epsilon = false) (found : Symbol) :
    choose g path epsilon position found = vanish := by
  rw [choose, hn, if_neg (by simp), if_pos (by simp)]

theorem choose_accept (hn : g.normalized.isNonterminal focus = false) (hε : focus ≠ epsilon) :
    choose g path focus position focus = accept := by
  rw [choose, hn, if_neg (by simp), if_neg (by simpa using hε), if_pos (by simp)]

/-- When the parser takes which action. -/
inductive Chosen (g : PreparedGrammar) (path : Path) (focus : Symbol) (position : Nat)
    (found : Symbol) : Action → Prop
  | expand {index : Nat} (hn : g.normalized.isNonterminal focus = true)
      (hc : g.table.cell? focus found = some (.expand index))
      (hr : path.reopens focus position = false) : Chosen g path focus position found (expand index)
  | cut {index : Nat} (hn : g.normalized.isNonterminal focus = true)
      (hc : g.table.cell? focus found = some (.expand index))
      (hr : path.reopens focus position = true) : Chosen g path focus position found cut
  | synch (hn : g.normalized.isNonterminal focus = true)
      (hc : g.table.cell? focus found = some .synch) : Chosen g path focus position found synch
  | skip (hn : g.normalized.isNonterminal focus = true)
      (hc : g.table.cell? focus found = none) : Chosen g path focus position found skip
  | vanish (hn : g.normalized.isNonterminal focus = false) (hε : focus = epsilon) :
      Chosen g path focus position found vanish
  | accept (hn : g.normalized.isNonterminal focus = false) (hε : focus ≠ epsilon)
      (hf : focus = found) : Chosen g path focus position found accept
  | replace (hn : g.normalized.isNonterminal focus = false) (hε : focus ≠ epsilon)
      (hf : focus ≠ found) : Chosen g path focus position found replace

theorem chosen_choose (g : PreparedGrammar) (path : Path) (focus : Symbol) (position : Nat)
    (found : Symbol) : Chosen g path focus position found (choose g path focus position found) := by
  unfold choose
  cases hn : g.normalized.isNonterminal focus with
  | true =>
    rw [if_pos rfl]
    cases hc : g.table.cell? focus found with
    | none => exact .skip hn hc
    | some cell =>
      cases cell with
      | synch => exact .synch hn hc
      | expand index =>
        dsimp only
        split
        · rename_i hr
          exact .cut hn hc hr
        · rename_i hr
          exact .expand hn hc (by simpa using hr)
  | false =>
    rw [if_neg (by simp)]
    split
    · rename_i hε
      exact .vanish hn (by simpa using hε)
    · rename_i hε
      split
      · rename_i hf
        exact .accept hn (by simpa using hε) (by simpa using hf)
      · rename_i hf
        exact .replace hn (by simpa using hε) (by simpa using hf)

end Action

namespace ParseState

/-! ## Exact runs -/

/-- `n` steps lead from `s` to `t`. -/
inductive Runs (g : PreparedGrammar) : Nat → ParseState → ParseState → Prop
  | refl (s : ParseState) : Runs g 0 s s
  | step {n : Nat} {s t u : ParseState} (h : s.step? g = some t) (hr : Runs g n t u) :
      Runs g (n + 1) s u

variable {g : PreparedGrammar}

theorem run_of_step? {s t : ParseState} (h : s.step? g = some t) : s.run g = t.run g := by
  rw [run]
  split
  · rename_i hn
    rw [hn] at h
    exact absurd h (by simp)
  · rename_i u hu
    rw [h] at hu
    rw [Option.some.inj hu]

theorem run_of_final {s : ParseState} (h : s.step? g = none) : s.run g = s := by
  rw [run]
  split
  · rfl
  · rename_i u hu
    rw [h] at hu
    exact absurd hu (by simp)

theorem Runs.run_eq {n : Nat} {s t : ParseState} (h : Runs g n s t) : s.run g = t.run g := by
  induction h with
  | refl s => rfl
  | step h _ ih => rw [run_of_step? h, ih]

theorem Runs.trans {n m : Nat} {s t u : ParseState} (h : Runs g n s t) (h' : Runs g m t u) :
    Runs g (n + m) s u := by
  induction h with
  | refl s =>
    rw [Nat.zero_add]
    exact h'
  | step h _ ih =>
    rw [Nat.succ_add]
    exact .step h (ih h')

theorem exists_runs_run (s : ParseState) :
    ∃ n, Runs g n s (s.run g) ∧ (s.run g).step? g = none := by
  fun_induction run g s with
  | case1 s h => exact ⟨0, .refl s, h⟩
  | case2 s t h _ ih =>
    obtain ⟨n, hr, hn⟩ := ih
    exact ⟨n + 1, .step h hr, hn⟩

/-- Two runs from the same state go the same way until the first one stops. -/
theorem Runs.le_of_final {n m : Nat} {s t u : ParseState} (h : Runs g n s t)
    (hf : t.step? g = none) (h' : Runs g m s u) : m ≤ n := by
  induction h generalizing m u with
  | refl s =>
    cases h' with
    | refl => exact Nat.le_refl 0
    | step hs => rw [hf] at hs; exact absurd hs (by simp)
  | step hs _ ih =>
    cases h' with
    | refl => exact Nat.zero_le _
    | step hs' hr' =>
      obtain rfl := Option.some.inj (hs.symm.trans hs')
      exact Nat.succ_le_succ (ih hf hr')

/-- What every step preserves holds after every run. -/
theorem Runs.preserves {P : ParseState → Prop}
    (hp : ∀ s t : ParseState, s.step? g = some t → P s → P t) {n : Nat} {s t : ParseState}
    (h : Runs g n s t) (hs : P s) : P t := by
  induction h with
  | refl s => exact hs
  | step h _ ih => exact ih (hp _ _ h hs)

theorem step?_of_focused {s : ParseState} {path : Path} {focus : Symbol} {next : Terminal}
    {rest : List Terminal} (ht : s.tree = .focused path focus) (hi : s.input = next :: rest) :
    s.step? g =
      some (s.apply g path focus next (.choose g path focus s.position next.symbol)) := by
  rw [step?, ht, hi]

/-- A step needs a focus and a terminal, and carries out the action that is chosen for them. -/
theorem exists_chosen_of_step? {s t : ParseState} (h : s.step? g = some t) :
    ∃ path focus next rest action, s.tree = .focused path focus ∧ s.input = next :: rest ∧
      Action.Chosen g path focus s.position next.symbol action ∧
      t = s.apply g path focus next action := by
  obtain ⟨tree, input, position, errors⟩ := s
  match tree, input with
  | .complete _, _ => simp [step?] at h
  | .focused _ _, [] => simp [step?] at h
  | .focused path focus, next :: rest =>
    exact ⟨path, focus, next, rest, _, rfl, rfl, Action.chosen_choose .., (Option.some.inj h).symm⟩

/-! ## Their length -/

theorem Runs.add_weight_le {n : Nat} {s t : ParseState} (h : Runs g n s t) :
    n + t.weight g.normalized ≤ s.weight g.normalized := by
  induction h with
  | refl s => omega
  | step h _ ih =>
    have := weight_step?_lt h
    omega

theorem pendingWeight_eq (g : Grammar) (room : Nat) : g.pendingWeight room = g.width ^ room := by
  induction room with
  | zero => rfl
  | succ room ih => rw [Grammar.pendingWeight, ih, Nat.pow_succ, Nat.mul_comm]

/-- The longest that a parse of `count` terminals can take. -/
def stepBound (g : Grammar) (count : Nat) : Nat :=
  g.width ^ ((count + 1) * (g.nonterminals.length + 1) + g.nonterminals.length)

theorem weight_ofTerminals (g : PreparedGrammar) (terminals : List Terminal) :
    (ofTerminals g terminals).weight g.normalized = stepBound g.normalized terminals.length := by
  have hr : Path.room g.normalized (terminals.length + 1) 0 [] =
      (terminals.length + 1) * (g.normalized.nonterminals.length + 1) +
        g.normalized.nonterminals.length := by
    have hc : (g.normalized.nonterminals.countP fun symbol => !Path.reopens [] symbol 0) =
        g.normalized.nonterminals.length := List.countP_eq_length.2 fun _ _ => rfl
    rw [Path.room, hc]
  simp only [weight, ofTerminals, PartialTree.weight, Path.weight, List.length_append,
    List.length_cons, List.length_nil, Nat.zero_add, Nat.add_zero]
  rw [hr, pendingWeight_eq, stepBound]

end ParseState

/-! ## Termination -/

/-- Every parse is a finite run with a bound on its length that depends on the grammar and on the
number of terminals alone. No run is longer, and a rule index that the table gives for the focus
names a rule of this nonterminal. -/
theorem parse_terminates (source : Grammar) (terminals : List Terminal) :
    ∃ n final, ParseState.Runs (.ofGrammar source) n (.ofTerminals (.ofGrammar source) terminals)
        final ∧
      final.step? (.ofGrammar source) = none ∧
      n ≤ ParseState.stepBound (PreparedGrammar.ofGrammar source).normalized terminals.length ∧
      (∀ m s, ParseState.Runs (.ofGrammar source) m
        (.ofTerminals (.ofGrammar source) terminals) s → m ≤ n) ∧
      parse (.ofGrammar source) terminals =
        ⟨final.tree.toTree, min final.position terminals.length,
          final.position == terminals.length, final.errors ++ final.trailing⟩ ∧
      ∀ m s, ParseState.Runs (.ofGrammar source) m
          (.ofTerminals (.ofGrammar source) terminals) s →
        ∀ path focus next rest index, s.tree = .focused path focus → s.input = next :: rest →
          (PreparedGrammar.ofGrammar source).table.cell? focus next.symbol =
            some (.expand index) →
          ∃ rule, (PreparedGrammar.ofGrammar source).normalized.rules[index]? = some rule ∧
            rule.left = focus := by
  obtain ⟨n, hr, hn⟩ := ParseState.exists_runs_run (g := .ofGrammar source)
    (.ofTerminals (.ofGrammar source) terminals)
  refine ⟨n, _, hr, hn, ?_, fun m s hs => hr.le_of_final hn hs, rfl, ?_⟩
  · have hw := hr.add_weight_le
    rw [ParseState.weight_ofTerminals] at hw
    omega
  · intro m s _ path focus next rest index _ _ hc
    obtain ⟨rule, hi, hl, _⟩ := Grammar.rule_of_cell? hc
    exact ⟨rule, hi, hl⟩

end FrontEnd
