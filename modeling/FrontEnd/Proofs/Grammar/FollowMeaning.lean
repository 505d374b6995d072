import FrontEnd.Proofs.Grammar.FirstMeaning

/-! # What FOLLOW means

A terminal follows a symbol if they stand side by side in a text that some nonterminal derives; the
end marker follows a symbol if the start symbol derives a text that ends in it. FOLLOW says exactly
this.

* `Grammar.DerivesNext`: the terminal or the end marker follows the symbol.
* `Grammar.followSets_holds`: derivations bear out every element.
* `Grammar.Foreseen`: FOLLOW has all that comes next behind the nonterminals of a text. A step
  keeps this (`Grammar.Foreseen.rewrites`).
* `Grammar.followSets_exact`: the passes end, with the exact sets.
-/

namespace FrontEnd
set_option autoImplicit false

/-- The place of an item in two lists, one after the other. -/
theorem append_eq_append_cons_iff {α : Type} {a b before after : List α} {item : α} :
    a ++ b = before ++ item :: after ↔
      (∃ rest, a = before ++ item :: rest ∧ after = rest ++ b) ∨
        ∃ rest, before = a ++ rest ∧ b = rest ++ item :: after := by
  rw [List.append_eq_append_iff]
  constructor
  · rintro (⟨rest, rfl, rfl⟩ | ⟨rest, rfl, h⟩)
    · exact Or.inr ⟨rest, rfl, rfl⟩
    · cases rest with
      | nil => exact Or.inr ⟨[], by simp, by simpa using h.symm⟩
      | cons other rest =>
        obtain ⟨rfl, rfl⟩ := List.cons.inj h
        exact Or.inl ⟨rest, rfl, rfl⟩
  · rintro (⟨rest, rfl, rfl⟩ | ⟨rest, rfl, rfl⟩)
    · exact Or.inr ⟨item :: rest, rfl, rfl⟩
    · exact Or.inl ⟨rest, rfl, rfl⟩

namespace Grammar
variable {g : Grammar}

/-! ## Derivations bear out the elements -/

/-- Some nonterminal derives a text in which the terminal `t` stands right behind the symbol or, for
the end marker, the start symbol derives a text that ends in it. -/
def DerivesNext (g : Grammar) (symbol t : Symbol) : Prop :=
  (t ∈ g.terminals ∧ ∃ top, g.isNonterminal top = true ∧
    ∃ before after, Derives g.rules [top] (before ++ symbol :: t :: after)) ∨
  t = endMarker ∧ ∃ before, Derives g.rules [g.start] (before ++ [symbol])

/-- A right side is rewritten behind one of its symbols. -/
theorem derives_behind {rule : Rule} (hr : rule ∈ g.rules) (hε : rule.left ≠ epsilon)
    {before rest : List Symbol} {symbol : Symbol} (hs : rule.right = before ++ symbol :: rest)
    {text : List Symbol} (hrest : Derives g.rules rest text) :
    Derives g.rules [rule.left] (before ++ symbol :: text) := by
  have hright := derives_right hr hε
  have hstep := hrest.around (before ++ [symbol]) []
  rw [hs] at hright
  simp only [List.append_nil, List.append_assoc, List.singleton_append] at hstep
  exact hright.trans hstep

/-- What the rest of a right side can start with follows the symbol before it. -/
theorem derivesNext_of_rest {rule : Rule} (hr : rule ∈ g.rules) (hε : rule.left ≠ epsilon)
    {before rest : List Symbol} {symbol : Symbol} (hs : rule.right = before ++ symbol :: rest)
    {t : Symbol} (ht : g.isTerminal t = true) {more : List Symbol}
    (hrest : Derives g.rules rest (t :: more)) : g.DerivesNext symbol t := by
  have hn := isNonterminal_left hr
  have hd := derives_behind hr hε hs hrest
  exact Or.inl ⟨mem_terminals_of_derives hn ht hd (by simp), rule.left, hn, before, more, hd⟩

/-- What follows the left side of a rule follows a symbol of its right side, if the symbols behind
that one vanish. -/
theorem DerivesNext.of_rule {rule : Rule} (hr : rule ∈ g.rules) (hε : rule.left ≠ epsilon)
    {before rest : List Symbol} {symbol : Symbol} (hs : rule.right = before ++ symbol :: rest)
    (hrest : Derives g.rules rest []) {t : Symbol} (h : g.DerivesNext rule.left t) :
    g.DerivesNext symbol t := by
  have hrule := derives_behind hr hε hs hrest
  rcases h with ⟨ht, top, htop, left, right, hd⟩ | ⟨rfl, left, hd⟩
  · refine Or.inl ⟨ht, top, htop, left ++ before, right, ?_⟩
    have hstep := hrule.around left (t :: right)
    simp only [List.append_assoc, List.cons_append] at hstep ⊢
    exact hd.trans hstep
  · refine Or.inr ⟨rfl, left ++ before, ?_⟩
    have hstep := hrule.around left []
    simp only [List.append_assoc, List.append_nil] at hstep ⊢
    exact hd.trans hstep

theorem followSets_holds (hε : ∀ rule ∈ g.rules, rule.left ≠ epsilon) :
    (g.followSets g.firstSets).Holds g.DerivesNext := by
  rw [followSets_eq]
  refine SetMap.holds_settle ?_ ?_
  · intro c hc follow hf t ht
    obtain ⟨rule, hr, before, symbol, rest, hs, -, rfl⟩ := mem_followContributions.1 hc
    rcases mem_firstBefore.1 ht with ⟨hne, ht⟩ | ⟨hv, ht⟩
    · obtain ⟨ht, more, hd⟩ := (derivesFirst_of_ne hne).1 (mem_firstOf_firstSets_iff.1 ht)
      exact derivesNext_of_rest hr (hε rule hr) hs ht hd
    · have hd := derivesFirst_epsilon.1 (mem_firstOf_firstSets_iff.1 hv)
      exact (hf rule.left t ht).of_rule hr (hε rule hr) hs hd
  · intro s t ht
    obtain ⟨rfl, rfl⟩ := mem_followStart.1 ht
    exact Or.inr ⟨rfl, [], Derives.refl _⟩

/-! ## The sets have all that derivations bear out -/

theorem firstBefore_append {first : SetMap} {after : SymbolSet} {text more : List Symbol}
    {t : Symbol} :
    t ∈ g.firstBefore first after (text ++ more) ↔
      t ∈ g.firstBefore first (g.firstBefore first after more) text := by
  simp only [mem_firstBefore, mem_firstOf_append]
  grind

/-- What can come next after a step could come next before it. -/
theorem firstBefore_of_rewrites {after : SymbolSet} {a b : List Symbol}
    (h : Rewrites g.rules a b) {t : Symbol} (ht : t ∈ g.firstBefore g.firstSets after b) :
    t ∈ g.firstBefore g.firstSets after a := by
  rcases mem_firstBefore.1 ht with ⟨hne, ht⟩ | ⟨hv, ht⟩
  · exact mem_firstBefore.2 (Or.inl ⟨hne, mem_firstOf_of_rewrites h ht⟩)
  · exact mem_firstBefore.2 (Or.inr ⟨mem_firstOf_of_rewrites h hv, ht⟩)

theorem firstBefore_mono {first : SetMap} {small large : SymbolSet}
    (h : ∀ t ∈ small, t ∈ large) {text : List Symbol} {t : Symbol}
    (ht : t ∈ g.firstBefore first small text) : t ∈ g.firstBefore first large text := by
  rcases mem_firstBefore.1 ht with ht | ⟨hv, ht⟩
  · exact mem_firstBefore.2 (Or.inl ht)
  · exact mem_firstBefore.2 (Or.inr ⟨hv, h t ht⟩)

/-- FOLLOW of every nonterminal of the text has what can come next behind it, where `after` can come
next behind the text. -/
def Foreseen (g : Grammar) (after : SymbolSet) (text : List Symbol) : Prop :=
  ∀ before symbol rest, text = before ++ symbol :: rest → g.isNonterminal symbol = true →
    ∀ t ∈ g.firstBefore g.firstSets after rest, t ∈ (g.followSets g.firstSets).lookup symbol

theorem Foreseen.single (symbol : Symbol) :
    g.Foreseen ((g.followSets g.firstSets).lookup symbol) [symbol] := by
  intro before other rest hs _ t ht
  obtain ⟨rfl, rfl, rfl⟩ : before = [] ∧ other = symbol ∧ rest = [] := by
    cases before <;> simp_all
  rcases mem_firstBefore.1 ht with ⟨hne, ht⟩ | ⟨-, ht⟩
  · exact absurd (mem_firstOf_nil.1 ht) hne
  · exact ht

/-- A step keeps all foreseen. -/
theorem Foreseen.rewrites {after : SymbolSet} {a b : List Symbol} (ha : g.Foreseen after a)
    (h : Rewrites g.rules a b) : g.Foreseen after b := by
  intro before symbol rest hs hn t ht
  cases h with
  | @rule rule hr hne left right =>
    rcases append_eq_append_cons_iff.1 hs with ⟨mid, rfl, rfl⟩ | ⟨front, rfl, hbehind⟩
    · -- in front of the rule
      refine ha before symbol (mid ++ rule.left :: right) (by simp) hn t ?_
      exact firstBefore_of_rewrites (.rule hr hne mid right) ht
    rcases append_eq_append_cons_iff.1 hbehind with ⟨mid, hright, rfl⟩ | ⟨mid, rfl, rfl⟩
    · -- inside: what comes behind the rule is in FOLLOW of its left side
      refine mem_followSets hr hright hn (firstBefore_mono ?_ (firstBefore_append.1 ht))
      exact ha left rule.left right rfl (isNonterminal_left hr)
    · -- behind the rule
      exact ha (left ++ rule.left :: mid) symbol rest (by simp) hn t ht
  | vanish left right =>
    rcases append_eq_append_cons_iff.1 hs with ⟨mid, rfl, rfl⟩ | ⟨mid, rfl, rfl⟩
    · refine ha before symbol (mid ++ epsilon :: right) (by simp) hn t ?_
      exact firstBefore_of_rewrites (.vanish mid right) ht
    · exact ha (left ++ epsilon :: mid) symbol rest (by simp) hn t ht

theorem Foreseen.derives {after : SymbolSet} {a b : List Symbol} (ha : g.Foreseen after a)
    (h : Derives g.rules a b) : g.Foreseen after b := by
  induction h with
  | refl => exact ha
  | tail _ hs ih => exact ih.rewrites hs

/-- The elements of FOLLOW are what derivations bear out. -/
theorem mem_followSets_iff (hε : ∀ rule ∈ g.rules, rule.left ≠ epsilon) {symbol : Symbol}
    (hn : g.isNonterminal symbol = true) {t : Symbol} :
    t ∈ (g.followSets g.firstSets).lookup symbol ↔ g.DerivesNext symbol t := by
  constructor
  · exact followSets_holds hε symbol t
  · rintro (⟨ht, top, -, before, after, hd⟩ | ⟨rfl, before, hd⟩)
    · have hterminal := (mem_terminals.1 ht).2
      refine ((Foreseen.single top).derives hd) before symbol (t :: after) rfl hn t ?_
      exact mem_firstBefore.2 (Or.inl ⟨isTerminal_ne_epsilon hterminal,
        mem_firstOf_terminal hterminal after⟩)
    · refine ((Foreseen.single g.start).derives hd) before symbol [] rfl hn endMarker ?_
      exact mem_firstBefore.2 (Or.inr ⟨mem_firstOf_nil.2 rfl, g.endMarker_mem_followSets⟩)

/-! ## The passes -/

theorem followSets_settles (g : Grammar) :
    ∃ n ≤ g.nonterminals.length * (g.terminals.size + 1),
      SetMap.Settles (g.growFollow g.firstSets) g.followStart n (g.followSets g.firstSets) := by
  obtain ⟨n, hn, hs⟩ := SetMap.settles_settle (fun _ => followContributions_within)
    g.within_followStart
  rw [← followSets_eq, ← growFollow_eq_pass] at hs
  have hle := SetMap.missing_le g.nonterminals (endMarker :: g.terminals.toList) g.followStart
  rw [List.length_cons, Std.TreeSet.length_toList] at hle
  exact ⟨n, Nat.le_trans hn hle, hs⟩

/-- The passes for FOLLOW end. A terminal is in the set of a nonterminal if some nonterminal,
reachable or not, derives a text where it stands right behind this one, and the end marker is if the
start symbol derives a text that ends in it; nothing else is, so never `ε` and no nonterminal but
perhaps the end marker. -/
theorem followSets_exact (g : Grammar) (hε : ∀ rule ∈ g.rules, rule.left ≠ epsilon) :
    (∃ n ≤ g.nonterminals.length * (g.terminals.size + 1),
      SetMap.Settles (g.growFollow (Sets.ofGrammar g).first)
        ((SetMap.empty g.nonterminals).add g.start {endMarker}) n (Sets.ofGrammar g).follow) ∧
    ∀ symbol, g.isNonterminal symbol = true →
      (∀ t, t ∈ (Sets.ofGrammar g).follow.lookup symbol ↔
        (t ∈ g.terminals ∧ ∃ top, g.isNonterminal top = true ∧
          ∃ before after, Derives g.rules [top] (before ++ symbol :: t :: after)) ∨
        (t = endMarker ∧ ∃ before, Derives g.rules [g.start] (before ++ [symbol]))) ∧
      epsilon ∉ (Sets.ofGrammar g).follow.lookup symbol ∧
      ∀ t ∈ (Sets.ofGrammar g).follow.lookup symbol, g.isNonterminal t = true →
        t = endMarker := by
  refine ⟨g.followSets_settles, fun symbol hn => ⟨fun t => mem_followSets_iff hε hn, ?_, ?_⟩⟩
  · intro hm
    rcases (mem_followSets_iff hε hn).1 hm with ⟨ht, -⟩ | ⟨he, -⟩
    · exact isTerminal_ne_epsilon (mem_terminals.1 ht).2 rfl
    · exact absurd he (by decide)
  · intro t hm ht
    rcases (mem_followSets_iff hε hn).1 hm with ⟨hterminal, -⟩ | ⟨he, -⟩
    · have hfalse := Tree.isTerminal_of_isNonterminal ht
      rw [(mem_terminals.1 hterminal).2] at hfalse
      exact absurd hfalse (by simp)
    · exact he

theorem followSets_exact_vanishing :
    ((∀ rule ∈ vanishing.rules, rule.left ≠ epsilon) ∧ vanishing.isNonterminal "S" = true) ∧
      (∃ top before after, Derives vanishing.rules [top] (before ++ "S" :: "b" :: after)) ∧
      "c" ∉ (Sets.ofGrammar vanishing).follow.lookup "S" ∧
      ∃ before, Derives vanishing.rules ["S"] (before ++ ["C"]) := by
  have hε : ∀ rule ∈ vanishing.rules, rule.left ≠ epsilon := by decide
  have hS : vanishing.isNonterminal "S" = true := by decide
  have hC : vanishing.isNonterminal "C" = true := by decide
  have hnext := ((followSets_exact vanishing hε).2 "S" hS).1 "b"
  have hend := ((followSets_exact vanishing hε).2 "C" hC).1 endMarker
  refine ⟨⟨hε, hS⟩, ?_, by decide +kernel, ?_⟩
  · rcases hnext.1 (by decide +kernel) with ⟨-, top, -, before, after, hd⟩ | ⟨he, -⟩
    · exact ⟨top, before, after, hd⟩
    · exact absurd he (by decide)
  · rcases hend.1 (by decide +kernel) with ⟨ht, -⟩ | ⟨-, hd⟩
    · exact absurd ht (by decide +kernel)
    · exact hd

end Grammar
end FrontEnd
