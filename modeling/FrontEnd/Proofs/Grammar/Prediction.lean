import FrontEnd.Grammar.Prepared
import FrontEnd.Proofs.Grammar.Follow

/-! # What the predictive table says

A table is filled by claims, one for each rule and each terminal that the rule selects.

* `Table.cell?_claimAll`: the first claim on a cell stands.
* `Table.expand_of_conflicts_eq_nil`: without conflicts every claim stands.
* `Grammar.rule_of_cell?`: the rule in a cell is one of the nonterminal's own that selects the
  terminal.
* `Grammar.cell?_of_mem_select`: without conflicts, a terminal that a rule selects leads to it.
-/

namespace FrontEnd
set_option autoImplicit false

namespace Table

/-! ## Single cells -/

theorem cell?_put (table : Table) (nonterminal terminal : Symbol) (cell : Cell) (a t : Symbol) :
    (table.put nonterminal terminal cell).cell? a t =
      if a = nonterminal ∧ t = terminal then some cell else table.cell? a t := by
  unfold cell? row put
  rw [Std.TreeMap.getD_insert]
  simp only [Std.LawfulEqCmp.compare_eq_iff_eq]
  by_cases ha : nonterminal = a
  · subst ha
    rw [if_pos rfl, Std.TreeMap.getElem?_insert]
    simp only [Std.LawfulEqCmp.compare_eq_iff_eq]
    by_cases ht : terminal = t
    · rw [if_pos ht, if_pos ⟨trivial, ht.symm⟩]
    · rw [if_neg ht, if_neg fun h => ht h.2.symm]
      rfl
  · rw [if_neg ha, if_neg fun h => ha h.1.symm]

theorem cell?_empty (nonterminals : List Symbol) (a t : Symbol) :
    (empty nonterminals).cell? a t = none := by
  have h : ∀ rows : Std.TreeMap Symbol (Std.TreeMap Symbol Cell),
      (rows.getD a ∅)[t]? = none →
      (Std.TreeMap.getD (rows.insertMany
        (nonterminals.map fun nonterminal => (nonterminal, ∅))) a ∅)[t]? = none := by
    induction nonterminals with
    | nil => intro rows hr; exact hr
    | cons nonterminal nonterminals ih =>
      intro rows hr
      rw [List.map_cons, Std.TreeMap.insertMany_cons]
      refine ih _ ?_
      rw [Std.TreeMap.getD_insert]
      split
      · exact Std.TreeMap.getElem?_emptyc
      · exact hr
  refine h ∅ ?_
  rw [Std.TreeMap.getD_emptyc]
  exact Std.TreeMap.getElem?_emptyc

/-! ## Claims -/

/-- Rule `index` of `nonterminal` selects `terminal`. -/
structure Claim where
  nonterminal : Symbol
  index : Nat
  terminal : Symbol

def Claim.covers (a t : Symbol) (c : Claim) : Bool := c.nonterminal == a && c.terminal == t

theorem Claim.covers_iff {a t : Symbol} {c : Claim} :
    c.covers a t = true ↔ a = c.nonterminal ∧ t = c.terminal := by
  rw [covers, Bool.and_eq_true, beq_iff_eq, beq_iff_eq, eq_comm, eq_comm (a := c.terminal)]

def claimAll (claims : List Claim) (table : Table) : Table :=
  claims.foldl (fun table c => table.claim c.nonterminal c.index c.terminal) table

theorem cell?_claim (table : Table) (c : Claim) (a t : Symbol) :
    (table.claim c.nonterminal c.index c.terminal).cell? a t =
      (table.cell? a t).or (if c.covers a t then some (.expand c.index) else none) := by
  unfold claim
  split
  · rename_i h
    rw [cell?_put]
    by_cases hc : c.covers a t = true
    · obtain ⟨rfl, rfl⟩ := Claim.covers_iff.1 hc
      rw [if_pos ⟨rfl, rfl⟩, if_pos hc, h, Option.none_or]
    · rw [if_neg (mt Claim.covers_iff.2 hc), if_neg hc, Option.or_none]
  all_goals
    rename_i h
    have hfilled : (table.cell? a t).or (if c.covers a t then some (.expand c.index) else none) =
        table.cell? a t := by
      by_cases hc : c.covers a t = true
      · obtain ⟨rfl, rfl⟩ := Claim.covers_iff.1 hc
        rw [h, Option.some_or]
      · rw [if_neg hc, Option.or_none]
    rw [hfilled]
  split <;> rfl

@[simp] theorem claimAll_cons (c : Claim) (claims : List Claim) (table : Table) :
    claimAll (c :: claims) table =
      claimAll claims (table.claim c.nonterminal c.index c.terminal) := rfl

theorem cell?_claimAll (claims : List Claim) (table : Table) (a t : Symbol) :
    (claimAll claims table).cell? a t =
      (table.cell? a t).or ((claims.find? (Claim.covers a t)).map fun c => .expand c.index) := by
  induction claims generalizing table with
  | nil => rw [List.find?_nil, Option.map_none, Option.or_none]; rfl
  | cons c claims ih =>
    rw [claimAll_cons, ih, cell?_claim, Option.or_assoc, List.find?_cons]
    refine congrArg _ ?_
    cases c.covers a t
    · rw [if_neg (by simp), Option.none_or]
    · rw [if_pos rfl, Option.some_or, Option.map_some]

/-! ## Conflicts -/

theorem conflicts_claim_ne_nil {table : Table} (h : table.conflicts ≠ [])
    (nonterminal : Symbol) (index : Nat) (terminal : Symbol) :
    (table.claim nonterminal index terminal).conflicts ≠ [] := by
  unfold claim
  split
  · exact h
  · split
    · exact h
    · simp
  · exact h

theorem conflicts_claim_filled {table : Table} {nonterminal terminal : Symbol} {existing : Nat}
    (h : table.cell? nonterminal terminal = some (.expand existing)) (index : Nat) :
    (table.claim nonterminal index terminal).conflicts ≠ [] := by
  unfold claim
  rw [h]
  dsimp only
  split
  · rename_i hr
    intro hn
    simp [isReported, hn] at hr
  · simp

theorem conflicts_claimAll_ne_nil {table : Table} (h : table.conflicts ≠ [])
    (claims : List Claim) : (claimAll claims table).conflicts ≠ [] := by
  induction claims generalizing table with
  | nil => exact h
  | cons c claims ih => exact ih (conflicts_claim_ne_nil h _ _ _)

/-- A claim on a cell that holds a rule makes a conflict. -/
theorem conflicts_ne_nil_of_filled {claims : List Claim} {table : Table} {c : Claim}
    (hc : c ∈ claims) {index : Nat}
    (h : table.cell? c.nonterminal c.terminal = some (.expand index)) :
    (claimAll claims table).conflicts ≠ [] := by
  induction claims generalizing table with
  | nil => simp at hc
  | cons d claims ih =>
    rw [claimAll_cons]
    rcases List.mem_cons.1 hc with rfl | hc
    · exact conflicts_claimAll_ne_nil (conflicts_claim_filled h _) claims
    · refine ih hc ?_
      rw [cell?_claim, h, Option.some_or]

theorem expand_of_conflicts_eq_nil {claims : List Claim} {table : Table}
    (hn : (claimAll claims table).conflicts = []) {c : Claim} (hc : c ∈ claims)
    (h : table.cell? c.nonterminal c.terminal = none) :
    (claimAll claims table).cell? c.nonterminal c.terminal = some (.expand c.index) := by
  induction claims generalizing table with
  | nil => simp at hc
  | cons d claims ih =>
    have hd := cell?_claim table d c.nonterminal c.terminal
    rw [h, Option.none_or] at hd
    rw [claimAll_cons] at hn ⊢
    rcases List.mem_cons.1 hc with rfl | hc
    · rw [if_pos (Claim.covers_iff.2 ⟨rfl, rfl⟩)] at hd
      rw [cell?_claimAll, hd, Option.some_or]
    · by_cases hs : d.covers c.nonterminal c.terminal = true
      · rw [if_pos hs] at hd
        exact absurd hn (conflicts_ne_nil_of_filled hc hd)
      · rw [if_neg hs] at hd
        exact ih hn hc hd

/-! ## Synchronisation points -/

/-- The tables have the same conflicts and the same rules in their cells. -/
def SameRules (table other : Table) : Prop :=
  other.conflicts = table.conflicts ∧
    ∀ a t index, other.cell? a t = some (.expand index) ↔ table.cell? a t = some (.expand index)

theorem SameRules.refl (table : Table) : table.SameRules table := ⟨rfl, fun _ _ _ => Iff.rfl⟩

theorem SameRules.trans {a b c : Table} (h : a.SameRules b) (h' : b.SameRules c) :
    a.SameRules c :=
  ⟨h'.1.trans h.1, fun s t index => (h'.2 s t index).trans (h.2 s t index)⟩

theorem sameRules_synchronize (nonterminal terminal : Symbol) (table : Table) :
    table.SameRules (table.synchronize nonterminal terminal) := by
  unfold synchronize
  split
  · rename_i h
    refine ⟨rfl, fun a t index => ?_⟩
    rw [cell?_put]
    by_cases hc : a = nonterminal ∧ t = terminal
    · rw [if_pos hc, hc.1, hc.2, h]
      simp
    · rw [if_neg hc]
  · exact SameRules.refl table

/-- Synchronisation points take no cell from a rule and make no conflicts. -/
theorem sameRules_synchronizeAll (follow : SetMap) (nonterminals : List Symbol) (table : Table) :
    table.SameRules
      (nonterminals.foldl (fun table nonterminal =>
        (follow.lookup nonterminal).toList.foldl (synchronize nonterminal) table) table) := by
  refine List.foldlRecOn nonterminals _ (SameRules.refl table) ?_
  intro outer ho nonterminal _
  refine List.foldlRecOn _ _ ho ?_
  intro inner hi terminal _
  exact hi.trans (sameRules_synchronize nonterminal terminal inner)

end Table

/-! ## The table of a grammar -/

namespace Grammar
variable {g : Grammar}

/-- The terminals that lead to a rule. -/
def select (g : Grammar) (rule : Rule) : SymbolSet :=
  g.firstBefore g.firstSets ((g.followSets g.firstSets).lookup rule.left) rule.right

def claims (g : Grammar) : List Table.Claim :=
  g.rules.zipIdx.flatMap fun entry =>
    (g.select entry.1).toList.map fun terminal => ⟨entry.1.left, entry.2, terminal⟩

def table (g : Grammar) : Table := .ofSets g (.ofGrammar g)

theorem mem_claims {c : Table.Claim} :
    c ∈ g.claims ↔
      ∃ rule, g.rules[c.index]? = some rule ∧ c.nonterminal = rule.left ∧
        c.terminal ∈ g.select rule := by
  unfold claims
  simp only [List.mem_flatMap, List.mem_map, Prod.exists, List.mem_zipIdx_iff_getElem?,
    Std.TreeSet.mem_toList]
  constructor
  · rintro ⟨rule, index, hr, terminal, ht, rfl⟩
    exact ⟨rule, hr, rfl, ht⟩
  · rintro ⟨rule, hr, hn, ht⟩
    exact ⟨rule, c.index, hr, c.terminal, ht, by rw [← hn]⟩

theorem zip_select (g : Grammar) :
    g.rules.zip (Sets.ofGrammar g).select = g.rules.map fun rule => (rule, g.select rule) := by
  have h : (g.rules.map id).zip (g.rules.map g.select) =
      g.rules.map fun rule => (rule, g.select rule) := List.zip_map'
  rwa [List.map_id] at h

/-- Filling the table starts with all claims. -/
theorem claimed_eq (g : Grammar) :
    (g.rules.zip (Sets.ofGrammar g).select).zipIdx.foldl
      (fun table entry => entry.1.2.toList.foldl (Table.claim entry.1.1.left entry.2) table)
      (Table.empty g.nonterminals) = Table.claimAll g.claims (.empty g.nonterminals) := by
  have hz : (g.rules.zip (Sets.ofGrammar g).select).zipIdx =
      g.rules.zipIdx.map fun entry => ((entry.1, g.select entry.1), entry.2) := by
    rw [zip_select, List.zipIdx_map]
    rfl
  rw [hz, Table.claimAll, claims, List.foldl_flatMap, List.foldl_map]
  simp only [List.foldl_map]

theorem sameRules_table (g : Grammar) :
    (Table.claimAll g.claims (.empty g.nonterminals)).SameRules g.table := by
  have hs := Table.sameRules_synchronizeAll (g.followSets g.firstSets) g.nonterminals
    (Table.claimAll g.claims (.empty g.nonterminals))
  rw [← g.claimed_eq] at hs ⊢
  exact hs

theorem production_of_getElem? {index : Nat} {rule : Rule} (h : g.rules[index]? = some rule) :
    g.production index = rule.production := by
  rw [production, h]

theorem rule_of_cell? {a t : Symbol} {index : Nat}
    (h : g.table.cell? a t = some (.expand index)) :
    ∃ rule, g.rules[index]? = some rule ∧ rule.left = a ∧ t ∈ g.select rule := by
  have hc := (g.sameRules_table.2 a t index).1 h
  rw [Table.cell?_claimAll, Table.cell?_empty, Option.none_or, Option.map_eq_some_iff] at hc
  obtain ⟨c, hf, he⟩ := hc
  obtain ⟨rule, hr, hn, ht⟩ := mem_claims.1 (List.mem_of_find?_eq_some hf)
  obtain ⟨ha, hterm⟩ := Table.Claim.covers_iff.1 (List.find?_some hf)
  obtain rfl : c.index = index := Cell.expand.inj he
  exact ⟨rule, hr, (ha.trans hn).symm, hterm ▸ ht⟩

theorem cell?_of_mem_select (hn : g.table.conflicts = []) {index : Nat} {rule : Rule}
    (hr : g.rules[index]? = some rule) {t : Symbol} (ht : t ∈ g.select rule) :
    g.table.cell? rule.left t = some (.expand index) := by
  refine (g.sameRules_table.2 rule.left t index).2 ?_
  rw [g.sameRules_table.1] at hn
  have hc : ⟨rule.left, index, t⟩ ∈ g.claims := mem_claims.2 ⟨rule, hr, rfl, ht⟩
  exact Table.expand_of_conflicts_eq_nil hn hc (Table.cell?_empty _ _ _)

end Grammar
end FrontEnd
