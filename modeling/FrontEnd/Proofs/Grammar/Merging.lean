import FrontEnd.Proofs.Grammar.LeftFactoring
import Mathlib.Data.List.Perm.Subperm

/-! # Merging comes to an end

Left factoring goes on in rounds, each of which merges one group of rules. A round lowers the length
of what still shares its start, so there are finitely many; afterwards no two rules share their start,
and another left factoring finds nothing to do.

* `firstShared?_eq_none_iff`: when there is nothing to merge.
* `merge?`, `Merges`: one round, and several.
* `merges_leftFactor`, `Merges.length_le`: all rounds, and how many there can be.
* `primed`, `freshName_eq_primed`: the names that are tried for a new symbol.
-/

namespace FrontEnd
set_option autoImplicit false

/-! ## Nothing to merge -/

/-- The rules have the same left side and the same first symbol, which is not `ε`. -/
def Rule.SharesStart (rule other : Rule) : Prop :=
  rule.left = other.left ∧
    ∃ head, head ≠ epsilon ∧ rule.right.head? = some head ∧ other.right.head? = some head

theorem Rule.sharesStart_cons_iff {left head : Symbol} {rest : List Symbol} {other : Rule} :
    SharesStart ⟨left, head :: rest⟩ other ↔
      head ≠ epsilon ∧ other.startsWith left head = true := by
  rw [startsWith, Bool.and_eq_true, beq_iff_eq, beq_iff_eq]
  constructor
  · rintro ⟨hleft, first, hne, hhead, hother⟩
    obtain rfl := Option.some.inj hhead
    exact ⟨hne, hleft.symm, hother⟩
  · rintro ⟨hne, hleft, hother⟩
    exact ⟨hleft.symm, head, hne, rfl, hother⟩

theorem firstShared?_eq_none_iff {rules : List Rule} :
    firstShared? rules = none ↔ rules.Pairwise fun rule other => ¬ rule.SharesStart other := by
  fun_induction firstShared? rules with
  | case1 => simp
  | case2 left rules ih =>
    have hnone : ∀ other ∈ rules, ¬ Rule.SharesStart ⟨left, []⟩ other := by
      rintro other - ⟨-, head, -, hhead, -⟩
      exact absurd hhead (by simp)
    rw [Option.map_eq_none_iff, ih, List.pairwise_cons, and_iff_right hnone]
  | case3 left head rest rules hc =>
    rw [Bool.and_eq_true, bne_iff_ne, List.any_eq_true] at hc
    obtain ⟨hne, other, hm, hstart⟩ := hc
    refine iff_of_false (by simp) fun h => ?_
    exact (List.pairwise_cons.1 h).1 other hm (Rule.sharesStart_cons_iff.2 ⟨hne, hstart⟩)
  | case4 left head rest rules hc ih =>
    have hnone : ∀ other ∈ rules, ¬ Rule.SharesStart ⟨left, head :: rest⟩ other := by
      intro other hm hs
      obtain ⟨hne, hstart⟩ := Rule.sharesStart_cons_iff.1 hs
      apply hc
      rw [Bool.and_eq_true, bne_iff_ne, List.any_eq_true]
      exact ⟨hne, other, hm, hstart⟩
    rw [Option.map_eq_none_iff, ih, List.pairwise_cons, and_iff_right hnone]

/-! ## Rounds -/

/-- Merges the first rules that share their start, under a fresh name. -/
def merge? (rules : List Rule) : Option (List Rule) :=
  (firstShared? rules).map fun s => s.factor (freshName (symbolsOf rules) (s.left ++ s.head))

theorem sharedLength_merge?_lt {rules merged : List Rule} (h : merge? rules = some merged) :
    sharedLength merged < sharedLength rules := by
  obtain ⟨s, hs, rfl⟩ := Option.map_eq_some_iff.1 h
  exact sharedLength_factor_lt hs (freshName_not_mem _ _)

/-- This many rounds lead from the first rules to the second. -/
inductive Merges : Nat → List Rule → List Rule → Prop
  | none (rules : List Rule) : Merges 0 rules rules
  | round {count : Nat} {rules merged result : List Rule} (h : merge? rules = some merged)
      (hm : Merges count merged result) : Merges (count + 1) rules result

namespace Merges
variable {count more : Nat} {rules result other : List Rule}

/-- Each round lowers the shared length. -/
theorem add_sharedLength_le (h : Merges count rules result) :
    count + sharedLength result ≤ sharedLength rules := by
  induction h with
  | none rules => omega
  | round h _ ih =>
    have hlt := sharedLength_merge?_lt h
    omega

/-- No sequence of rounds is longer than one that has come to its end. -/
theorem length_le (h : Merges count rules result) (hend : merge? result = Option.none)
    (h' : Merges more rules other) : more ≤ count := by
  induction h generalizing more with
  | none rules =>
    cases h' with
    | none => exact Nat.le_refl 0
    | round hm => exact absurd (hend.symm.trans hm) (by simp)
  | round hm _ ih =>
    cases h' with
    | none => exact Nat.zero_le _
    | round hm' hs' =>
      obtain rfl := Option.some.inj (hm.symm.trans hm')
      exact Nat.succ_le_succ (ih hend hs')

end Merges

/-- Left factoring carries out all rounds. -/
theorem merges_leftFactor (rules : List Rule) :
    ∃ count, Merges count rules (leftFactor rules) ∧ merge? (leftFactor rules) = none := by
  fun_induction leftFactor rules with
  | case1 rules found =>
    refine ⟨0, .none rules, ?_⟩
    rw [merge?, found, Option.map_none]
  | case2 rules s found _ ih =>
    obtain ⟨count, hm, hend⟩ := ih
    refine ⟨count + 1, .round ?_ hm, hend⟩
    rw [merge?, found, Option.map_some]

theorem leftFactor_eq_self {rules : List Rule} (h : merge? rules = none) :
    leftFactor rules = rules := by
  have found : firstShared? rules = none := Option.map_eq_none_iff.1 h
  unfold leftFactor
  split
  · rfl
  · rename_i s hs
    exact absurd (found.symm.trans hs) (by simp)

/-! ## Fresh names -/

/-- The name with this many primes after it. -/
def primed (name : Symbol) : Nat → Symbol
  | 0 => name
  | count + 1 => primed (name.push '\x27') count

theorem length_primed (name : Symbol) (count : Nat) :
    (primed name count).length = name.length + count := by
  induction count generalizing name with
  | zero => rfl
  | succ count ih =>
    rw [primed, ih, String.length_push]
    omega

theorem primed_injective (name : Symbol) : Function.Injective (primed name) := by
  intro count other he
  have hl := congrArg String.length he
  rw [length_primed, length_primed] at hl
  omega

/-- There are no more names in a row that are taken than there are taken names. -/
theorem le_length_of_primed_mem {taken : List Symbol} {name : Symbol} {count : Nat}
    (h : ∀ fewer < count, primed name fewer ∈ taken) : count ≤ taken.length := by
  have hnodup : ((List.range count).map (primed name)).Nodup :=
    List.nodup_range.map (primed_injective name)
  have hsubset : (List.range count).map (primed name) ⊆ taken := by
    intro symbol hs
    obtain ⟨fewer, hf, rfl⟩ := List.mem_map.1 hs
    exact h fewer (List.mem_range.1 hf)
  have hle := (List.subperm_of_subset hnodup hsubset).length_le
  rwa [List.length_map, List.length_range] at hle

/-- A fresh name is the first of the primed names that is not taken. -/
theorem freshName_eq_primed (taken : List Symbol) (name : Symbol) :
    ∃ count, freshName taken name = primed name count ∧
      ∀ fewer < count, primed name fewer ∈ taken := by
  fun_induction freshName taken name with
  | case1 name h ih =>
    obtain ⟨count, he, hall⟩ := ih
    refine ⟨count + 1, he, fun fewer hf => ?_⟩
    cases fewer with
    | zero => exact h
    | succ fewer => exact hall fewer (Nat.lt_of_succ_lt_succ hf)
  | case2 name h => exact ⟨0, rfl, fun fewer hf => absurd hf (Nat.not_lt_zero fewer)⟩

/-! ## All rounds -/

/-- Left factoring comes to an end after finitely many rounds, and no sequence of rounds is longer.
The search for a fresh name tries no more names than are taken and one. In the result no two rules
share their left side and their first symbol, unless this is `ε`, and left factoring leaves the
result as it is. -/
theorem leftFactor_settles (rules : List Rule) :
    (∃ count ≤ sharedLength rules, Merges count rules (leftFactor rules) ∧
      merge? (leftFactor rules) = none ∧
      ∀ more other, Merges more rules other → more ≤ count) ∧
    (∀ (taken : List Symbol) (name : Symbol), ∃ count ≤ taken.length,
      freshName taken name = primed name count ∧ primed name count ∉ taken ∧
        ∀ fewer < count, primed name fewer ∈ taken) ∧
    ((leftFactor rules).Pairwise fun rule other => rule.left = other.left →
      ∀ head ∈ rule.right.head?, other.right.head? = some head → head = epsilon) ∧
    leftFactor (leftFactor rules) = leftFactor rules := by
  obtain ⟨count, hm, hend⟩ := merges_leftFactor rules
  refine ⟨⟨count, ?_, hm, hend, fun more other => hm.length_le hend⟩, fun taken name => ?_, ?_,
    leftFactor_eq_self hend⟩
  · have hle := hm.add_sharedLength_le
    omega
  · obtain ⟨tried, he, hall⟩ := freshName_eq_primed taken name
    exact ⟨tried, le_length_of_primed_mem hall, he, he ▸ freshName_not_mem taken name, hall⟩
  · have hpairwise := firstShared?_eq_none_iff.1 (Option.map_eq_none_iff.1 hend)
    refine hpairwise.imp fun {rule other} hs hleft head hhead hother => ?_
    by_contra hne
    exact hs ⟨hleft, head, hne, hhead, hother⟩

end FrontEnd
