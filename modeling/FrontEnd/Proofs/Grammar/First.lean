import FrontEnd.Parse.Termination
import FrontEnd.Proofs.Grammar.Closure

/-! # FIRST is closed under the rules

* `Grammar.Begins`: what a single symbol can start with, given the sets of the nonterminals.
* `Grammar.mem_firstOf_cons`: a sequence starts as its first symbol does or, if that vanishes, as
  the rest does.
* `Grammar.mem_firstSets_of_mem_firstOf`: whatever a right side starts with is in FIRST of the left
  side.
* `Grammar.firstSets_induction`: what every rule hands on from sets below FIRST holds of FIRST.
-/

namespace FrontEnd
set_option autoImplicit false

namespace Grammar
variable {g : Grammar}

/-! ## Sequences -/

/-- The symbol can start with `t`, or vanish if `t` is `ε`. -/
def Begins (g : Grammar) (first : SetMap) (symbol t : Symbol) : Prop :=
  if symbol = epsilon then t = epsilon
  else if g.isNonterminal symbol = true then t ∈ first.lookup symbol
  else t = symbol

theorem begins_epsilon {first : SetMap} {t : Symbol} :
    g.Begins first epsilon t ↔ t = epsilon := by
  rw [Begins, if_pos rfl]

theorem begins_nonterminal {first : SetMap} {symbol t : Symbol} (he : symbol ≠ epsilon)
    (hn : g.isNonterminal symbol = true) :
    g.Begins first symbol t ↔ t ∈ first.lookup symbol := by
  rw [Begins, if_neg he, if_pos hn]

theorem begins_terminal {first : SetMap} {symbol t : Symbol} (he : symbol ≠ epsilon)
    (hn : g.isNonterminal symbol = false) : g.Begins first symbol t ↔ t = symbol := by
  rw [Begins, if_neg he, if_neg (by simp [hn])]

theorem Begins.mono {a b : SetMap} (h : a.Le b) {symbol t : Symbol}
    (ht : g.Begins a symbol t) : g.Begins b symbol t := by
  unfold Begins at ht ⊢
  split
  · rwa [if_pos ‹_›] at ht
  · rw [if_neg ‹_›] at ht
    split
    · rw [if_pos ‹_›] at ht
      exact h symbol t ht
    · rwa [if_neg ‹_›] at ht

theorem mem_firstOf_nil {first : SetMap} {t : Symbol} :
    t ∈ g.firstOf first [] ↔ t = epsilon := by
  rw [firstOf]
  exact SymbolSet.mem_singleton

theorem mem_firstOf_cons {first : SetMap} {symbol t : Symbol} {rest : List Symbol} :
    t ∈ g.firstOf first (symbol :: rest) ↔
      t ≠ epsilon ∧ g.Begins first symbol t ∨
        g.Begins first symbol epsilon ∧ t ∈ g.firstOf first rest := by
  rw [firstOf]
  by_cases he : symbol = epsilon
  · subst he
    rw [if_pos (by simp)]
    simp only [begins_epsilon, true_and]
    exact ⟨Or.inr, fun h => h.resolve_left fun h => h.1 h.2⟩
  rw [if_neg (by simpa using he)]
  cases hn : g.isNonterminal symbol
  · rw [if_neg (by simp), SymbolSet.mem_singleton]
    simp only [begins_terminal he hn]
    constructor
    · rintro rfl
      exact Or.inl ⟨he, rfl⟩
    · rintro (h | h)
      · exact h.2
      · exact absurd h.1.symm he
  · simp only [begins_nonterminal he hn, if_true, Std.TreeSet.contains_iff_mem]
    by_cases hv : epsilon ∈ first.lookup symbol
    · rw [if_pos hv, SymbolSet.mem_union, SymbolSet.mem_erase]
      simp only [hv, true_and]
    · rw [if_neg hv]
      simp only [hv, false_and, or_false]
      exact ⟨fun h => ⟨fun e => hv (e ▸ h), h⟩, And.right⟩

theorem firstOf_mono {a b : SetMap} (h : a.Le b) {symbols : List Symbol} {t : Symbol}
    (ht : t ∈ g.firstOf a symbols) : t ∈ g.firstOf b symbols := by
  induction symbols with
  | nil => exact mem_firstOf_nil.2 (mem_firstOf_nil.1 ht)
  | cons symbol rest ih =>
    rcases mem_firstOf_cons.1 ht with ⟨hne, ht⟩ | ⟨hv, ht⟩
    · exact mem_firstOf_cons.2 (Or.inl ⟨hne, ht.mono h⟩)
    · exact mem_firstOf_cons.2 (Or.inr ⟨hv.mono h, ih ht⟩)

/-- Occurrences of `ε` do not matter. -/
theorem firstOf_production (first : SetMap) (rule : Rule) :
    g.firstOf first rule.production = g.firstOf first rule.right := by
  have h : ∀ symbols : List Symbol, symbols.all (· == epsilon) = true →
      g.firstOf first symbols = g.firstOf first [] := by
    intro symbols
    induction symbols with
    | nil => intro _; rfl
    | cons symbol rest ih =>
      intro ha
      rw [List.all_cons, Bool.and_eq_true] at ha
      have h1 : g.firstOf first (symbol :: rest) = g.firstOf first rest := by
        rw [firstOf, if_pos ha.1]
      exact h1.trans (ih ha.2)
  unfold Rule.production
  split
  · rename_i he
    exact (h rule.right he).symm
  · rfl

/-! ## The sets of the nonterminals -/

theorem mem_terminals {t : Symbol} :
    t ∈ g.terminals ↔ (∃ rule ∈ g.rules, t ∈ rule.right) ∧ g.isTerminal t = true := by
  unfold terminals
  rw [Std.TreeSet.mem_ofList, List.contains_iff_mem, List.mem_filter, List.mem_flatMap]

/-- A terminal that a part of a right side starts with stands there or in FIRST of a symbol. -/
theorem mem_candidates_of_mem_firstOf {first : SetMap} {candidates : List Symbol}
    (hf : ∀ s, ∀ t ∈ first.lookup s, t ∈ epsilon :: candidates)
    {symbols : List Symbol} (hs : ∀ s ∈ symbols, g.isTerminal s = true → s ∈ candidates)
    {t : Symbol} (ht : t ∈ g.firstOf first symbols) : t ∈ epsilon :: candidates := by
  induction symbols with
  | nil => exact List.mem_cons.2 (Or.inl (mem_firstOf_nil.1 ht))
  | cons symbol rest ih =>
    rcases mem_firstOf_cons.1 ht with ⟨hne, ht⟩ | ⟨-, ht⟩
    · unfold Begins at ht
      split at ht
      · exact absurd ht hne
      · split at ht
        · exact hf symbol t ht
        · rename_i he hn
          subst ht
          exact List.mem_cons.2 (Or.inr (hs t (by simp) (by simpa [isTerminal, he] using hn)))
    · exact ih (fun s h => hs s (by simp [h])) ht

def firstContributions (g : Grammar) : List Contribution :=
  g.rules.map fun rule => ⟨rule.left, fun first => g.firstOf first rule.right⟩

theorem growFirst_eq_pass (g : Grammar) : g.growFirst = SetMap.pass g.firstContributions := by
  funext first
  unfold growFirst SetMap.pass firstContributions
  rw [List.foldl_map]
  rfl

theorem isNonterminal_left {rule : Rule} (h : rule ∈ g.rules) :
    g.isNonterminal rule.left = true :=
  List.any_eq_true.2 ⟨rule, h, by simp⟩

/-- FIRST only ever holds `ε` and terminals, for nonterminals. -/
theorem firstContributions_within {c : Contribution} (hc : c ∈ g.firstContributions) :
    c.target ∈ g.nonterminals ∧
      ∀ sets : SetMap, sets.Within g.nonterminals (epsilon :: g.terminals.toList) →
        ∀ t ∈ c.found sets, t ∈ epsilon :: g.terminals.toList := by
  obtain ⟨rule, hr, rfl⟩ := List.mem_map.1 hc
  refine ⟨mem_nonterminals (isNonterminal_left hr), fun sets hs t ht => ?_⟩
  refine mem_candidates_of_mem_firstOf (fun s t ht => (hs s t ht).2) ?_ ht
  intro s hm ht
  exact Std.TreeSet.mem_toList.2 (mem_terminals.2 ⟨⟨rule, hr, hm⟩, ht⟩)

theorem firstSets_closed (g : Grammar) :
    SetMap.Closed g.firstContributions g.firstSets ∧
      SetMap.Within g.nonterminals (epsilon :: g.terminals.toList) g.firstSets := by
  unfold firstSets
  rw [growFirst_eq_pass]
  refine (SetMap.settle_closed ?_ (fun _ => firstContributions_within)
    (SetMap.holds_empty _ _)).2
  intro c hc
  obtain ⟨rule, -, rfl⟩ := List.mem_map.1 hc
  exact fun a b h t ht => firstOf_mono h ht

theorem mem_firstSets_of_mem_firstOf {rule : Rule} (hr : rule ∈ g.rules) {t : Symbol}
    (ht : t ∈ g.firstOf g.firstSets rule.right) : t ∈ g.firstSets.lookup rule.left :=
  g.firstSets_closed.1 _ (List.mem_map.2 ⟨rule, hr, rfl⟩) t ht

/-! ## Elements of FIRST come from rules -/

theorem holds_firstSets {relation : Symbol → Symbol → Prop}
    (h : ∀ c ∈ g.firstContributions, ∀ sets : SetMap, sets.Holds relation →
      ∀ t ∈ c.found sets, relation c.target t) : g.firstSets.Holds relation := by
  unfold firstSets
  rw [growFirst_eq_pass]
  exact SetMap.holds_settle h (SetMap.holds_empty _ _)

/-- What every rule hands on from sets below FIRST to its left side holds of FIRST. -/
theorem firstSets_induction {relation : Symbol → Symbol → Prop}
    (h : ∀ rule ∈ g.rules, ∀ first : SetMap, first.Le g.firstSets → first.Holds relation →
      ∀ t ∈ g.firstOf first rule.right, relation rule.left t) :
    g.firstSets.Holds relation := by
  have hboth : g.firstSets.Holds fun s t => t ∈ g.firstSets.lookup s ∧ relation s t := by
    refine holds_firstSets fun c hc first hf t ht => ?_
    obtain ⟨rule, hr, rfl⟩ := List.mem_map.1 hc
    have hle : first.Le g.firstSets := fun s x hx => (hf s x hx).1
    exact ⟨mem_firstSets_of_mem_firstOf hr (firstOf_mono hle ht),
      h rule hr first hle (fun s x hx => (hf s x hx).2) t ht⟩
  exact fun s t ht => (hboth s t ht).2

theorem exists_rule_of_mem_firstSets {symbol t : Symbol} (h : t ∈ g.firstSets.lookup symbol) :
    ∃ rule ∈ g.rules, rule.left = symbol ∧ t ∈ g.firstOf g.firstSets rule.right := by
  have hrules : g.firstSets.Holds fun s t =>
      ∃ rule ∈ g.rules, rule.left = s ∧ t ∈ g.firstOf g.firstSets rule.right :=
    firstSets_induction fun rule hr _ hle _ _ ht => ⟨rule, hr, rfl, firstOf_mono hle ht⟩
  exact hrules symbol t h

end Grammar
end FrontEnd
