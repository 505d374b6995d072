import FrontEnd.Proofs.Grammar.Prediction
import Mathlib.Data.List.Induction
import Mathlib.Data.List.Nodup
import Mathlib.Order.Bounds.Basic

/-! # Exactly what the table holds

A cell belongs to the first rule that selects it, and is in conflict if a second one does. The rules
claim their cells in the order of their indices, each in the order of its terminals, so the first two
claims on a cell are those of the two smallest indices.

* `Table.claimants`: the rules that claim a cell, in the order of their claims.
* `Table.cell?_claimAll_empty`, `Table.mem_conflicts_claimAll`: the first of them has the cell, and the
  first two are its conflict.
* `Table.conflicts_sublist_claims`: conflicts come in the order of the claims.
* `Table.cell?_synchronizeAll`: the cells that become synchronisation points.
* `Grammar.SelectsAt`, `Grammar.table_exact`: cells and conflicts in terms of SELECT and FOLLOW.
* `Grammar.conflicts_eq_nil_iff`: no conflicts are disjoint SELECT sets.
-/

namespace FrontEnd
set_option autoImplicit false

/-! ## Smallest indices -/

theorem head?_eq_some_iff_isLeast {indices : List Nat} (h : indices.Pairwise (· < ·)) {i : Nat} :
    indices.head? = some i ↔ IsLeast {n | n ∈ indices} i := by
  cases indices with
  | nil => exact iff_of_false (by simp) fun hi => List.not_mem_nil hi.1
  | cons n indices =>
    have hleast : IsLeast {m | m ∈ n :: indices} n := by
      refine ⟨List.mem_cons_self, fun m hm => ?_⟩
      rcases List.mem_cons.1 hm with rfl | hm
      · exact le_rfl
      · exact ((List.pairwise_cons.1 h).1 m hm).le
    rw [List.head?_cons, Option.some_inj]
    exact ⟨fun he => he ▸ hleast, fun hi => hleast.unique hi⟩

theorem pair_prefix_iff_isLeast {indices : List Nat} (h : indices.Pairwise (· < ·)) {i j : Nat} :
    [i, j] <+: indices ↔
      IsLeast {n | n ∈ indices} i ∧ IsLeast {n | n ∈ indices ∧ n ≠ i} j := by
  rw [← head?_eq_some_iff_isLeast h]
  cases indices with
  | nil => simp
  | cons n indices =>
    rw [List.cons_prefix_cons, List.head?_cons, Option.some_inj, eq_comm]
    refine and_congr_right fun he => ?_
    subst he
    obtain ⟨hlt, hrest⟩ := List.pairwise_cons.1 h
    have hothers : {m | m ∈ n :: indices ∧ m ≠ n} = {m | m ∈ indices} := by
      ext m
      constructor
      · rintro ⟨hm, hne⟩
        exact (List.mem_cons.1 hm).resolve_left hne
      · exact fun hm => ⟨List.mem_cons_of_mem n hm, (hlt m hm).ne'⟩
    rw [hothers, ← head?_eq_some_iff_isLeast hrest]
    cases indices with
    | nil => simp
    | cons m indices => simp [eq_comm]

namespace Table

/-! ## Claims on a cell -/

/-- The indices of the rules that claim a cell, in the order of their claims. -/
def claimants (claims : List Claim) (a t : Symbol) : List Nat :=
  (claims.filter (Claim.covers a t)).map (·.index)

theorem claimants_concat (claims : List Claim) (c : Claim) (a t : Symbol) :
    claimants (claims ++ [c]) a t =
      claimants claims a t ++ if c.covers a t then [c.index] else [] := by
  rw [claimants, List.filter_append, List.map_append, List.filter_cons, List.filter_nil]
  split <;> rfl

theorem claimAll_concat (claims : List Claim) (c : Claim) (table : Table) :
    claimAll (claims ++ [c]) table =
      (claimAll claims table).claim c.nonterminal c.index c.terminal :=
  List.foldl_append

/-- The first claim on a cell stands. -/
theorem cell?_claimAll_empty (claims : List Claim) (nonterminals : List Symbol) (a t : Symbol) :
    (claimAll claims (empty nonterminals)).cell? a t =
      (claimants claims a t).head?.map Cell.expand := by
  rw [cell?_claimAll, cell?_empty, Option.none_or, claimants, List.head?_map, List.head?_filter,
    Option.map_map]
  rfl

/-! ## Conflicts -/

theorem isReported_iff {table : Table} {a t : Symbol} :
    table.isReported a t = true ↔
      ∃ c ∈ table.conflicts, c.nonterminal = a ∧ c.terminal = t := by
  simp only [isReported, List.any_eq_true, Bool.and_eq_true, beq_iff_eq]

/-- Cells with two claims or more are reported. -/
theorem isReported_of_mem_conflicts_iff {table : Table} {indices : Symbol → Symbol → List Nat}
    (h : ∀ c : Conflict, c ∈ table.conflicts ↔
      [c.existing, c.incoming] <+: indices c.nonterminal c.terminal) (a t : Symbol) :
    table.isReported a t = true ↔ 2 ≤ (indices a t).length := by
  rw [isReported_iff]
  constructor
  · rintro ⟨c, hm, hn, ht⟩
    rw [h, hn, ht] at hm
    exact hm.length_le
  · intro hl
    match hi : indices a t, hl with
    | existing :: incoming :: others, _ =>
      exact ⟨⟨a, t, existing, incoming⟩, (h _).2 (by simp [hi]), rfl, rfl⟩

/-- Only the second claim on a cell makes a conflict. -/
def Claim.conflicts (c : Claim) : List Nat → List Conflict
  | [existing] => [⟨c.nonterminal, c.terminal, existing, c.index⟩]
  | _ => []

theorem conflicts_claim {table : Table} {c : Claim} {indices : List Nat}
    (hcell : table.cell? c.nonterminal c.terminal = indices.head?.map Cell.expand)
    (hreported : table.isReported c.nonterminal c.terminal = true ↔ 2 ≤ indices.length) :
    (table.claim c.nonterminal c.index c.terminal).conflicts =
      table.conflicts ++ c.conflicts indices := by
  unfold claim
  rw [hcell]
  match indices, hreported with
  | [], _ => exact (List.append_nil _).symm
  | [existing], hreported =>
    have hfirst := mt hreported.1 (Nat.not_succ_le_self 1)
    dsimp only [List.head?_cons, Option.map_some]
    rw [if_neg hfirst]
    rfl
  | existing :: incoming :: others, hreported =>
    dsimp only [List.head?_cons, Option.map_some]
    rw [if_pos (hreported.2 (Nat.le_add_left ..))]
    exact (List.append_nil _).symm

/-- The first two claims on a cell are its conflict. -/
theorem mem_conflicts_claimAll (claims : List Claim) (nonterminals : List Symbol) (c : Conflict) :
    c ∈ (claimAll claims (empty nonterminals)).conflicts ↔
      [c.existing, c.incoming] <+: claimants claims c.nonterminal c.terminal := by
  induction claims using List.reverseRecOn generalizing c with
  | nil => simp [claimAll, empty, claimants]
  | append_singleton claims d ih =>
    have hreported := isReported_of_mem_conflicts_iff (fun other => ih other) d.nonterminal d.terminal
    rw [claimAll_concat, claimants_concat,
      conflicts_claim (cell?_claimAll_empty ..) hreported, List.mem_append, ih]
    by_cases hcovers : d.covers c.nonterminal c.terminal = true
    · obtain ⟨hn, ht⟩ := Claim.covers_iff.1 hcovers
      obtain ⟨_, _, existing, incoming⟩ := c
      obtain rfl : _ = d.nonterminal := hn
      obtain rfl : _ = d.terminal := ht
      rw [if_pos hcovers]
      rcases claimants claims d.nonterminal d.terminal with _ | ⟨first, _ | ⟨second, others⟩⟩
      · simp [Claim.conflicts]
      · simp [Claim.conflicts]
      · simp [Claim.conflicts]
    -- Claims on other cells change nothing.
    · rw [if_neg hcovers, List.append_nil]
      refine or_iff_left fun hm => hcovers ?_
      unfold Claim.conflicts at hm
      split at hm
      · rw [List.mem_singleton.1 hm]
        exact Claim.covers_iff.2 ⟨rfl, rfl⟩
      · exact absurd hm List.not_mem_nil

theorem isReported_claimAll (claims : List Claim) (nonterminals : List Symbol) (a t : Symbol) :
    (claimAll claims (empty nonterminals)).isReported a t = true ↔
      2 ≤ (claimants claims a t).length :=
  isReported_of_mem_conflicts_iff (mem_conflicts_claimAll claims nonterminals) a t

/-- The claim that a conflict turns down. -/
def Claim.ofConflict (c : Conflict) : Claim := ⟨c.nonterminal, c.incoming, c.terminal⟩

/-- Conflicts come in the order of the claims that they turn down. -/
theorem conflicts_sublist_claims (claims : List Claim) (nonterminals : List Symbol) :
    ((claimAll claims (empty nonterminals)).conflicts.map Claim.ofConflict).Sublist claims := by
  induction claims using List.reverseRecOn with
  | nil => exact List.nil_sublist _
  | append_singleton claims d ih =>
    rw [claimAll_concat,
      conflicts_claim (cell?_claimAll_empty ..) (isReported_claimAll ..), List.map_append]
    refine ih.append ?_
    unfold Claim.conflicts
    split
    · exact List.Sublist.refl _
    · exact List.nil_sublist _

/-! ## Synchronisation points -/

theorem cell?_synchronize (nonterminal terminal : Symbol) (table : Table) (a t : Symbol) :
    (table.synchronize nonterminal terminal).cell? a t =
      (table.cell? a t).or
        (if a = nonterminal ∧ t = terminal then some .synch else none) := by
  unfold synchronize
  split
  · rename_i h
    rw [cell?_put]
    by_cases hc : a = nonterminal ∧ t = terminal
    · rw [if_pos hc, if_pos hc, hc.1, hc.2, h, Option.none_or]
    · rw [if_neg hc, if_neg hc, Option.or_none]
  · rename_i cell h
    by_cases hc : a = nonterminal ∧ t = terminal
    · rw [hc.1, hc.2, h, Option.some_or]
    · rw [if_neg hc, Option.or_none]

theorem cell?_synchronizeRow (nonterminal : Symbol) (terminals : List Symbol) (table : Table)
    (a t : Symbol) :
    (terminals.foldl (synchronize nonterminal) table).cell? a t =
      (table.cell? a t).or
        (if a = nonterminal ∧ t ∈ terminals then some .synch else none) := by
  induction terminals generalizing table with
  | nil => simp
  | cons terminal terminals ih =>
    rw [List.foldl_cons, ih, cell?_synchronize, Option.or_assoc]
    refine congrArg _ ?_
    by_cases hn : a = nonterminal <;> by_cases ht : t = terminal <;> simp [hn, ht]

/-- Each nonterminal is synchronized at what may follow it, where no rule has the cell. -/
theorem cell?_synchronizeAll (follow : SetMap) (nonterminals : List Symbol) (table : Table)
    (a t : Symbol) :
    (nonterminals.foldl (fun table nonterminal =>
        (follow.lookup nonterminal).toList.foldl (synchronize nonterminal) table) table).cell? a t =
      (table.cell? a t).or
        (if a ∈ nonterminals ∧ t ∈ follow.lookup a then some .synch else none) := by
  induction nonterminals generalizing table with
  | nil => simp
  | cons nonterminal nonterminals ih =>
    rw [List.foldl_cons, ih, cell?_synchronizeRow, Option.or_assoc]
    refine congrArg _ ?_
    by_cases hn : a = nonterminal
    · subst hn
      by_cases ht : t ∈ follow.lookup a <;> simp [ht, Std.TreeSet.mem_toList]
    · simp [hn]

end Table

/-! ## The table of a grammar -/

namespace Grammar
variable {g : Grammar}

/-- The rule with this index is one of `a` and its SELECT set contains `t`. -/
def SelectsAt (g : Grammar) (a t : Symbol) (index : Nat) : Prop :=
  ∃ rule ∈ g.rules[index]?, rule.left = a ∧
    ∃ set ∈ (Sets.ofGrammar g).select[index]?, t ∈ set

theorem selectsAt_iff {a t : Symbol} {index : Nat} :
    g.SelectsAt a t index ↔
      ∃ rule, g.rules[index]? = some rule ∧ rule.left = a ∧ t ∈ g.select rule := by
  have hselect : (Sets.ofGrammar g).select[index]? = g.rules[index]?.map g.select :=
    List.getElem?_map
  unfold SelectsAt
  rw [hselect]
  cases g.rules[index]? <;> simp

theorem mem_claimants {a t : Symbol} {index : Nat} :
    index ∈ Table.claimants g.claims a t ↔ g.SelectsAt a t index := by
  rw [selectsAt_iff, Table.claimants, List.mem_map]
  constructor
  · rintro ⟨c, hc, rfl⟩
    obtain ⟨hc, hcovers⟩ := List.mem_filter.1 hc
    obtain ⟨ha, ht⟩ := Table.Claim.covers_iff.1 hcovers
    obtain ⟨rule, hr, hn, hs⟩ := mem_claims.1 hc
    exact ⟨rule, hr, (ha.trans hn).symm, ht ▸ hs⟩
  · rintro ⟨rule, hr, rfl, hs⟩
    exact ⟨⟨rule.left, index, t⟩, List.mem_filter.2 ⟨mem_claims.2 ⟨rule, hr, rfl, hs⟩,
      Table.Claim.covers_iff.2 ⟨rfl, rfl⟩⟩, rfl⟩

/-- Claims come rule by rule, each in the order of its terminals. -/
theorem pairwise_claims (g : Grammar) :
    g.claims.Pairwise fun c d =>
      c.index < d.index ∨ c.index = d.index ∧ c.terminal < d.terminal := by
  have hindices : g.rules.zipIdx.Pairwise fun entry other => entry.2 < other.2 := by
    rw [← List.pairwise_map (f := Prod.snd), List.zipIdx_map_snd]
    exact List.pairwise_lt_range' 1
  refine List.pairwise_flatMap.2 ⟨fun entry _ => ?_, hindices.imp fun hlt c hc d hd => ?_⟩
  · refine List.pairwise_map.2 (Std.TreeSet.ordered_toList.imp fun hlt => ?_)
    exact Or.inr ⟨rfl, compareOfLessAndEq_eq_lt.1 hlt⟩
  · obtain ⟨_, -, rfl⟩ := List.mem_map.1 hc
    obtain ⟨_, -, rfl⟩ := List.mem_map.1 hd
    exact Or.inl hlt

theorem pairwise_claimants (g : Grammar) (a t : Symbol) :
    (Table.claimants g.claims a t).Pairwise (· < ·) := by
  refine List.pairwise_map.2 ?_
  refine (g.pairwise_claims.filter (Table.Claim.covers a t)).imp_of_mem fun hc hd h => ?_
  refine h.resolve_right fun hterminal => ?_
  have hc := (Table.Claim.covers_iff.1 (List.mem_filter.1 hc).2).2
  have hd := (Table.Claim.covers_iff.1 (List.mem_filter.1 hd).2).2
  rw [← hc, ← hd] at hterminal
  exact String.lt_irrefl t hterminal.2

theorem mem_nonterminals_iff {symbol : Symbol} :
    symbol ∈ g.nonterminals ↔ g.isNonterminal symbol = true := by
  refine ⟨fun h => ?_, mem_nonterminals⟩
  obtain ⟨rule, hr, rfl⟩ := List.mem_map.1 (List.mem_eraseDups.1 h)
  exact isNonterminal_left hr

theorem cell?_table (g : Grammar) (a t : Symbol) :
    g.table.cell? a t =
      ((Table.claimants g.claims a t).head?.map Cell.expand).or
        (if g.isNonterminal a = true ∧ t ∈ (Sets.ofGrammar g).follow.lookup a
          then some .synch else none) := by
  have h := Table.cell?_synchronizeAll (Sets.ofGrammar g).follow g.nonterminals
    (Table.claimAll g.claims (.empty g.nonterminals)) a t
  simp only [mem_nonterminals_iff] at h
  rw [Table.cell?_claimAll_empty, ← g.claimed_eq] at h
  exact h

theorem mem_conflicts_iff {c : Conflict} :
    c ∈ g.table.conflicts ↔
      IsLeast {i | g.SelectsAt c.nonterminal c.terminal i} c.existing ∧
        IsLeast {i | g.SelectsAt c.nonterminal c.terminal i ∧ i ≠ c.existing} c.incoming := by
  rw [g.sameRules_table.1, Table.mem_conflicts_claimAll,
    pair_prefix_iff_isLeast (g.pairwise_claimants _ _)]
  simp only [mem_claimants]

/-- Conflicts are ordered by the rule that is turned down, and then by the terminal. -/
theorem pairwise_conflicts (g : Grammar) :
    g.table.conflicts.Pairwise fun c d =>
      c.incoming < d.incoming ∨ c.incoming = d.incoming ∧ c.terminal < d.terminal := by
  rw [g.sameRules_table.1]
  exact List.pairwise_map.1
    (g.pairwise_claims.sublist (Table.conflicts_sublist_claims g.claims g.nonterminals))

/-- A cell determines its conflict, so that no cell is reported twice. -/
theorem nodup_conflicts (g : Grammar) :
    (g.table.conflicts.map fun c => (c.nonterminal, c.terminal)).Nodup := by
  refine List.Nodup.map_on (fun c hc d hd he => ?_) (g.pairwise_conflicts.imp fun {c d} h hcd => ?_)
  · obtain ⟨hn, ht⟩ := Prod.mk.inj he
    have hc := mem_conflicts_iff.1 hc
    have hd := mem_conflicts_iff.1 hd
    rw [← hn, ← ht] at hd
    have hexisting := hc.1.unique hd.1
    have hincoming := hc.2.unique (hexisting ▸ hd.2)
    cases c
    cases d
    congr
  · subst hcd
    rcases h with h | ⟨-, h⟩
    · exact Nat.lt_irrefl _ h
    · exact String.lt_irrefl _ h

theorem exists_conflict_iff {a t : Symbol} :
    (∃ c ∈ g.table.conflicts, c.nonterminal = a ∧ c.terminal = t) ↔
      ∃ i j, i < j ∧ g.SelectsAt a t i ∧ g.SelectsAt a t j := by
  constructor
  · rintro ⟨c, hc, rfl, rfl⟩
    obtain ⟨hexisting, hincoming⟩ := mem_conflicts_iff.1 hc
    have hle := hexisting.2 hincoming.1.1
    exact ⟨_, _, lt_of_le_of_ne hle hincoming.1.2.symm, hexisting.1, hincoming.1.1⟩
  · rintro ⟨i, j, hlt, hi, hj⟩
    have hclaimants := g.pairwise_claimants a t
    rw [← mem_claimants] at hi hj
    match hs : Table.claimants g.claims a t with
    | [] => exact absurd (hs ▸ hi) List.not_mem_nil
    | [first] =>
      rw [hs, List.mem_singleton] at hi hj
      exact absurd (hi.trans hj.symm) hlt.ne
    | existing :: incoming :: others =>
      have hprefix : [existing, incoming] <+: Table.claimants g.claims a t := ⟨others, hs.symm⟩
      rw [pair_prefix_iff_isLeast hclaimants] at hprefix
      simp only [mem_claimants] at hprefix
      exact ⟨⟨a, t, existing, incoming⟩, mem_conflicts_iff.2 hprefix, rfl, rfl⟩

theorem conflicts_eq_nil_iff :
    g.table.conflicts = [] ↔
      (g.rules.zip (Sets.ofGrammar g).select).Pairwise fun entry other =>
        entry.1.left = other.1.left → ∀ t ∈ entry.2, t ∉ other.2 := by
  have hselects : ∀ {a t : Symbol} {i : Nat}, g.SelectsAt a t i ↔
      ∃ entry, (g.rules.zip (Sets.ofGrammar g).select)[i]? = some entry ∧
        entry.1.left = a ∧ t ∈ entry.2 := by
    intro a t i
    rw [selectsAt_iff, zip_select, List.getElem?_map]
    cases g.rules[i]? <;> simp
  rw [List.pairwise_iff_getElem]
  constructor
  · intro hnil i j hi hj hlt ha t hti htj
    have hselect : ∃ i j, i < j ∧ g.SelectsAt _ t i ∧ g.SelectsAt _ t j :=
      ⟨i, j, hlt, hselects.2 ⟨_, List.getElem?_eq_getElem hi, ha, hti⟩,
        hselects.2 ⟨_, List.getElem?_eq_getElem hj, rfl, htj⟩⟩
    obtain ⟨c, hc, -⟩ := exists_conflict_iff.2 hselect
    exact List.not_mem_nil (hnil ▸ hc)
  · intro hdisjoint
    refine List.eq_nil_iff_forall_not_mem.2 fun c hc => ?_
    obtain ⟨i, j, hlt, hi, hj⟩ := exists_conflict_iff.1 ⟨c, hc, rfl, rfl⟩
    obtain ⟨entry, he, ha, ht⟩ := hselects.1 hi
    obtain ⟨other, ho, hb, ht'⟩ := hselects.1 hj
    obtain ⟨hi, rfl⟩ := List.getElem?_eq_some_iff.1 he
    obtain ⟨hj, rfl⟩ := List.getElem?_eq_some_iff.1 ho
    exact hdisjoint i j hi hj hlt (ha.trans hb.symm) _ ht ht'

/-! ## Cells -/

theorem head?_claimants_eq_none_iff {a t : Symbol} :
    (Table.claimants g.claims a t).head? = none ↔ ∀ i, ¬g.SelectsAt a t i := by
  rw [List.head?_eq_none_iff, List.eq_nil_iff_forall_not_mem]
  simp only [mem_claimants]

theorem expand_iff {a t : Symbol} {index : Nat} :
    g.table.cell? a t = some (.expand index) ↔ IsLeast {i | g.SelectsAt a t i} index := by
  have hleast := head?_eq_some_iff_isLeast (g.pairwise_claimants a t) (i := index)
  simp only [mem_claimants] at hleast
  rw [cell?_table, ← hleast]
  cases (Table.claimants g.claims a t).head? <;> simp

theorem synch_iff {a t : Symbol} :
    g.table.cell? a t = some .synch ↔
      (∀ i, ¬g.SelectsAt a t i) ∧
        g.isNonterminal a = true ∧ t ∈ (Sets.ofGrammar g).follow.lookup a := by
  rw [cell?_table, ← head?_claimants_eq_none_iff]
  cases (Table.claimants g.claims a t).head? <;> simp

theorem cell?_eq_none_iff {a t : Symbol} :
    g.table.cell? a t = none ↔
      (∀ i, ¬g.SelectsAt a t i) ∧
        ¬(g.isNonterminal a = true ∧ t ∈ (Sets.ofGrammar g).follow.lookup a) := by
  rw [cell?_table, ← head?_claimants_eq_none_iff]
  cases (Table.claimants g.claims a t).head? <;> simp

theorem cell?_eq_none_of_isNonterminal_eq_false {a : Symbol} (h : g.isNonterminal a = false)
    (t : Symbol) : g.table.cell? a t = none := by
  refine cell?_eq_none_iff.2 ⟨fun i hi => ?_, fun hsynch => Bool.false_ne_true (h ▸ hsynch.1)⟩
  obtain ⟨rule, hr, rfl, -⟩ := selectsAt_iff.1 hi
  exact Bool.false_ne_true (h ▸ isNonterminal_left (List.mem_of_getElem? hr))

/-- The smallest index that selects a cell fills it, and the two smallest are its conflict. -/
theorem table_exact (g : Grammar) :
    (∀ a t,
      (∀ index, g.table.cell? a t = some (.expand index) ↔
        IsLeast {i | g.SelectsAt a t i} index) ∧
      (g.table.cell? a t = some .synch ↔
        (∀ i, ¬g.SelectsAt a t i) ∧
          g.isNonterminal a = true ∧ t ∈ (Sets.ofGrammar g).follow.lookup a) ∧
      (g.table.cell? a t = none ↔
        (∀ i, ¬g.SelectsAt a t i) ∧
          ¬(g.isNonterminal a = true ∧ t ∈ (Sets.ofGrammar g).follow.lookup a)) ∧
      (g.isNonterminal a = false → g.table.cell? a t = none)) ∧
    (∀ c, c ∈ g.table.conflicts ↔
      IsLeast {i | g.SelectsAt c.nonterminal c.terminal i} c.existing ∧
        IsLeast {i | g.SelectsAt c.nonterminal c.terminal i ∧ i ≠ c.existing} c.incoming) ∧
    (∀ a t, (∃ c ∈ g.table.conflicts, c.nonterminal = a ∧ c.terminal = t) ↔
      ∃ i j, i < j ∧ g.SelectsAt a t i ∧ g.SelectsAt a t j) ∧
    (g.table.conflicts.map fun c => (c.nonterminal, c.terminal)).Nodup ∧
    (g.table.conflicts.Pairwise fun c d =>
      c.incoming < d.incoming ∨ c.incoming = d.incoming ∧ c.terminal < d.terminal) ∧
    (g.table.conflicts = [] ↔
      (g.rules.zip (Sets.ofGrammar g).select).Pairwise fun entry other =>
        entry.1.left = other.1.left → ∀ t ∈ entry.2, t ∉ other.2) :=
  ⟨fun _ t => ⟨fun _ => expand_iff, synch_iff, cell?_eq_none_iff,
      fun h => cell?_eq_none_of_isNonterminal_eq_false h t⟩,
    fun _ => mem_conflicts_iff, fun _ _ => exists_conflict_iff, g.nodup_conflicts,
    g.pairwise_conflicts, conflicts_eq_nil_iff⟩

end Grammar
end FrontEnd
