import FrontEnd.Proofs.Grammar.Language

/-! # What FIRST means

A text can start with a terminal if it derives a text that starts with it, and it can vanish if it
derives the empty text. FIRST says exactly this, of single nonterminals and of texts.

* `Grammar.DerivesFirst`: the text can start with a terminal or, for `ε`, vanish.
* `Grammar.derivesFirst_of_mem_firstOf`: sets that are borne out by derivations say only of texts
  what derivations bear out.
* `Grammar.mem_firstOf_of_rewrites`: a step back never loses an element.
* `Grammar.mem_firstOf_firstSets_iff`: the elements are what derivations bear out.
* `Grammar.firstSets_exact`: the passes end, with the exact sets.
-/

namespace FrontEnd
set_option autoImplicit false

/-- Rewriting brings in no symbol that is not on a right side. -/
theorem Derives.mem_or_mem_right {rules : List Rule} {a b : List Symbol} (h : Derives rules a b)
    {t : Symbol} (ht : t ∈ b) : t ∈ a ∨ ∃ rule ∈ rules, t ∈ rule.right := by
  induction h with
  | refl => exact Or.inl ht
  | tail _ hs ih =>
    cases hs with
    | @rule rule hr _ before after =>
      simp only [List.mem_append, List.mem_cons] at ht ih
      rcases ht with ht | ht | ht
      · exact ih (Or.inl ht)
      · exact Or.inr ⟨rule, hr, ht⟩
      · exact ih (Or.inr (Or.inr ht))
    | vanish before after =>
      simp only [List.mem_append, List.mem_cons] at ht ih
      rcases ht with ht | ht
      · exact ih (Or.inl ht)
      · exact ih (Or.inr (Or.inr ht))

namespace Grammar
variable {g : Grammar}

theorem isTerminal_ne_epsilon {t : Symbol} (h : g.isTerminal t = true) : t ≠ epsilon :=
  (isTerminal_iff.1 h).1

/-- A terminal that a nonterminal derives stands on a right side. -/
theorem mem_terminals_of_derives {symbol t : Symbol} (hn : g.isNonterminal symbol = true)
    (ht : g.isTerminal t = true) {text : List Symbol} (h : Derives g.rules [symbol] text)
    (hm : t ∈ text) : t ∈ g.terminals := by
  refine mem_terminals.2 ⟨(h.mem_or_mem_right hm).resolve_left fun hs => ?_, ht⟩
  obtain rfl := List.mem_singleton.1 hs
  rw [isTerminal, hn] at ht
  simp at ht

/-! ## Derivations bear out the elements -/

/-- The text derives one that starts with the terminal `t` or, if `t` is `ε`, the empty one. -/
def DerivesFirst (g : Grammar) (text : List Symbol) (t : Symbol) : Prop :=
  t = epsilon ∧ Derives g.rules text [] ∨
    g.isTerminal t = true ∧ ∃ rest, Derives g.rules text (t :: rest)

theorem derivesFirst_epsilon {text : List Symbol} :
    g.DerivesFirst text epsilon ↔ Derives g.rules text [] := by
  simp [DerivesFirst, isTerminal]

theorem derivesFirst_of_ne {text : List Symbol} {t : Symbol} (h : t ≠ epsilon) :
    g.DerivesFirst text t ↔
      g.isTerminal t = true ∧ ∃ rest, Derives g.rules text (t :: rest) := by
  simp [DerivesFirst, h]

theorem DerivesFirst.of_derives {text more : List Symbol} {t : Symbol}
    (h : Derives g.rules text more) (ht : g.DerivesFirst more t) : g.DerivesFirst text t := by
  rcases ht with ⟨he, hd⟩ | ⟨ht, rest, hd⟩
  · exact Or.inl ⟨he, h.trans hd⟩
  · exact Or.inr ⟨ht, rest, h.trans hd⟩

/-- What a text that does not vanish starts with stays in front of any other. -/
theorem DerivesFirst.append {text : List Symbol} {t : Symbol} (h : g.DerivesFirst text t)
    (hne : t ≠ epsilon) (more : List Symbol) : g.DerivesFirst (text ++ more) t := by
  obtain ⟨ht, rest, hd⟩ := (derivesFirst_of_ne hne).1 h
  exact Or.inr ⟨ht, rest ++ more, hd.append (Derives.refl more)⟩

/-- Derivations bear out an element of a set. Nothing is asked of the set of `ε`, which nothing
reads. -/
def FirstHolds (g : Grammar) (symbol t : Symbol) : Prop :=
  symbol ≠ epsilon → g.DerivesFirst [symbol] t

theorem derivesFirst_of_begins {first : SetMap} (hf : first.Holds g.FirstHolds)
    {symbol t : Symbol} (h : g.Begins first symbol t) : g.DerivesFirst [symbol] t := by
  by_cases he : symbol = epsilon
  · subst he
    obtain rfl := begins_epsilon.1 h
    exact Or.inl ⟨rfl, derives_nil (by simp)⟩
  cases hn : g.isNonterminal symbol with
  | true => exact hf symbol t ((begins_nonterminal he hn).1 h) he
  | false =>
    obtain rfl := (begins_terminal he hn).1 h
    exact Or.inr ⟨by simp [isTerminal, he, hn], [], Derives.refl _⟩

theorem derivesFirst_of_mem_firstOf {first : SetMap} (hf : first.Holds g.FirstHolds)
    {text : List Symbol} {t : Symbol} (h : t ∈ g.firstOf first text) : g.DerivesFirst text t := by
  induction text with
  | nil => exact Or.inl ⟨mem_firstOf_nil.1 h, Derives.refl _⟩
  | cons symbol text ih =>
    rcases mem_firstOf_cons.1 h with ⟨hne, hb⟩ | ⟨hv, ht⟩
    · exact (derivesFirst_of_begins hf hb).append hne text
    · have hd := derivesFirst_epsilon.1 (derivesFirst_of_begins hf hv)
      exact (ih ht).of_derives (hd.append (Derives.refl text))

theorem firstSets_holds (g : Grammar) : g.firstSets.Holds g.FirstHolds :=
  firstSets_induction fun _ hr _ _ hf _ ht hne =>
    (derivesFirst_of_mem_firstOf hf ht).of_derives (derives_right hr hne)

/-! ## The sets have all that derivations bear out -/

theorem mem_firstOf_append {first : SetMap} {text more : List Symbol} {t : Symbol} :
    t ∈ g.firstOf first (text ++ more) ↔
      t ≠ epsilon ∧ t ∈ g.firstOf first text ∨
        epsilon ∈ g.firstOf first text ∧ t ∈ g.firstOf first more := by
  induction text with
  | nil =>
    simp [mem_firstOf_nil]
  | cons symbol text ih =>
    simp only [List.cons_append, mem_firstOf_cons, ih]
    grind

theorem mem_firstOf_singleton {first : SetMap} {symbol : Symbol} (hε : symbol ≠ epsilon)
    (hn : g.isNonterminal symbol = true) {t : Symbol} :
    t ∈ g.firstOf first [symbol] ↔ t ∈ first.lookup symbol := by
  rw [mem_firstOf_cons, begins_nonterminal hε hn, begins_nonterminal hε hn, mem_firstOf_nil]
  constructor
  · rintro (⟨-, hm⟩ | ⟨hm, rfl⟩) <;> exact hm
  · intro hm
    by_cases he : t = epsilon
    · exact Or.inr ⟨he ▸ hm, he⟩
    · exact Or.inl ⟨he, hm⟩

/-- A part of a text may be replaced by one that can start with more. -/
theorem mem_firstOf_around {first : SetMap} {small large : List Symbol}
    (h : ∀ t ∈ g.firstOf first small, t ∈ g.firstOf first large) (before after : List Symbol)
    {t : Symbol} (ht : t ∈ g.firstOf first (before ++ (small ++ after))) :
    t ∈ g.firstOf first (before ++ (large ++ after)) := by
  simp only [mem_firstOf_append] at ht ⊢
  exact ht.imp_right (And.imp_right (Or.imp (And.imp_right (h t)) (And.imp_left (h epsilon))))

/-- What can come first after a step could come first before it. -/
theorem mem_firstOf_of_rewrites {a b : List Symbol} (h : Rewrites g.rules a b) {t : Symbol}
    (ht : t ∈ g.firstOf g.firstSets b) : t ∈ g.firstOf g.firstSets a := by
  cases h with
  | @rule rule hr hε before after =>
    have hright : ∀ s ∈ g.firstOf g.firstSets rule.right,
        s ∈ g.firstOf g.firstSets [rule.left] := fun s hs =>
      (mem_firstOf_singleton hε (isNonterminal_left hr)).2 (mem_firstSets_of_mem_firstOf hr hs)
    exact mem_firstOf_around hright before after ht
  | vanish before after =>
    have hvanish : ∀ s ∈ g.firstOf g.firstSets [], s ∈ g.firstOf g.firstSets [epsilon] :=
      fun s hs => mem_firstOf_cons.2 (Or.inr ⟨begins_epsilon.2 rfl, hs⟩)
    exact mem_firstOf_around hvanish before after ht

theorem mem_firstOf_of_derives {a b : List Symbol} (h : Derives g.rules a b) {t : Symbol}
    (ht : t ∈ g.firstOf g.firstSets b) : t ∈ g.firstOf g.firstSets a := by
  induction h using Relation.ReflTransGen.head_induction_on with
  | refl => exact ht
  | head hs _ ih => exact mem_firstOf_of_rewrites hs ih

theorem mem_firstOf_terminal {first : SetMap} {t : Symbol} (ht : g.isTerminal t = true)
    (rest : List Symbol) : t ∈ g.firstOf first (t :: rest) := by
  have hne := isTerminal_ne_epsilon ht
  have hn : g.isNonterminal t = false := isNonterminal_eq_false_iff.2 (isTerminal_iff.1 ht).2
  exact mem_firstOf_cons.2 (Or.inl ⟨hne, (begins_terminal hne hn).2 rfl⟩)

/-- The elements of FIRST of a text are what derivations bear out. -/
theorem mem_firstOf_firstSets_iff {text : List Symbol} {t : Symbol} :
    t ∈ g.firstOf g.firstSets text ↔ g.DerivesFirst text t := by
  constructor
  · exact derivesFirst_of_mem_firstOf g.firstSets_holds
  · rintro (⟨rfl, hd⟩ | ⟨ht, rest, hd⟩)
    · exact mem_firstOf_of_derives hd (mem_firstOf_nil.2 rfl)
    · exact mem_firstOf_of_derives hd (mem_firstOf_terminal ht rest)

/-- The elements of FIRST of a nonterminal are what derivations bear out. -/
theorem mem_firstSets_iff {symbol : Symbol} (hn : g.isNonterminal symbol = true)
    (hε : symbol ≠ epsilon) {t : Symbol} :
    t ∈ g.firstSets.lookup symbol ↔ g.DerivesFirst [symbol] t := by
  rw [← mem_firstOf_firstSets_iff, mem_firstOf_singleton hε hn]

/-! ## The passes -/

theorem firstSets_settles (g : Grammar) :
    ∃ n ≤ g.nonterminals.length * (g.terminals.size + 1),
      SetMap.Settles g.growFirst (.empty g.nonterminals) n g.firstSets := by
  have hstart : (SetMap.empty g.nonterminals).Within g.nonterminals
      (epsilon :: g.terminals.toList) := SetMap.holds_empty _ _
  obtain ⟨n, hn, hs⟩ := SetMap.settles_settle (fun _ => firstContributions_within) hstart
  rw [← growFirst_eq_pass] at hs
  have hle := SetMap.missing_le g.nonterminals (epsilon :: g.terminals.toList)
    (.empty g.nonterminals)
  rw [List.length_cons, Std.TreeSet.length_toList] at hle
  exact ⟨n, Nat.le_trans hn hle, hs⟩

/-- The passes for FIRST end. A nonterminal has the terminals in its set that it can start with, and
`ε` if it can vanish; the same holds of every text. Terminals of a text need not stand in a rule. -/
theorem firstSets_exact (g : Grammar) :
    (∃ n ≤ g.nonterminals.length * (g.terminals.size + 1),
      SetMap.Settles g.growFirst (.empty g.nonterminals) n (Sets.ofGrammar g).first) ∧
    (∀ symbol, g.isNonterminal symbol = true → symbol ≠ epsilon →
      (∀ t, t ≠ epsilon →
        (t ∈ (Sets.ofGrammar g).first.lookup symbol ↔
          t ∈ g.terminals ∧ ∃ rest, Derives g.rules [symbol] (t :: rest))) ∧
      (epsilon ∈ (Sets.ofGrammar g).first.lookup symbol ↔ Derives g.rules [symbol] []) ∧
      ((Sets.ofGrammar g).isNullable symbol = true ↔ Derives g.rules [symbol] [])) ∧
    ∀ text : List Symbol,
      (∀ t, t ≠ epsilon →
        (t ∈ g.firstOf (Sets.ofGrammar g).first text ↔
          g.isTerminal t = true ∧ ∃ rest, Derives g.rules text (t :: rest))) ∧
      (epsilon ∈ g.firstOf (Sets.ofGrammar g).first text ↔ Derives g.rules text []) := by
  refine ⟨g.firstSets_settles, fun symbol hn hε => ?_, fun text => ?_⟩
  · have hvanish : epsilon ∈ g.firstSets.lookup symbol ↔ Derives g.rules [symbol] [] :=
      (mem_firstSets_iff hn hε).trans derivesFirst_epsilon
    refine ⟨fun t hne => ((mem_firstSets_iff hn hε).trans (derivesFirst_of_ne hne)).trans ?_,
      hvanish, Std.TreeSet.contains_iff_mem.trans hvanish⟩
    constructor
    · rintro ⟨ht, rest, hd⟩
      exact ⟨mem_terminals_of_derives hn ht hd List.mem_cons_self, rest, hd⟩
    · rintro ⟨ht, rest, hd⟩
      exact ⟨(mem_terminals.1 ht).2, rest, hd⟩
  · exact ⟨fun t hne => mem_firstOf_firstSets_iff.trans (derivesFirst_of_ne hne),
      mem_firstOf_firstSets_iff.trans derivesFirst_epsilon⟩

/-- `A` can vanish, and so can what stands before `b`; `C` derives no word. -/
def vanishing : Grammar where
  rules := [⟨"S", ["A", epsilon, "A", "b", "C"]⟩, ⟨"A", []⟩, ⟨"A", ["S", "A"]⟩, ⟨"C", ["C", "c"]⟩]
  nonempty := by simp

theorem firstSets_exact_vanishing :
    (vanishing.isNonterminal "S" = true ∧ "S" ≠ epsilon ∧ "b" ≠ epsilon) ∧
      (∃ rest, Derives vanishing.rules ["S"] ("b" :: rest)) ∧
      ¬Derives vanishing.rules ["S"] [] ∧ Derives vanishing.rules ["A"] [] := by
  have hS : vanishing.isNonterminal "S" = true ∧ "S" ≠ epsilon := by decide
  have hA : vanishing.isNonterminal "A" = true ∧ "A" ≠ epsilon := by decide
  obtain ⟨hfirst, -, hnull⟩ := (firstSets_exact vanishing).2.1 "S" hS.1 hS.2
  obtain ⟨-, -, hnull'⟩ := (firstSets_exact vanishing).2.1 "A" hA.1 hA.2
  refine ⟨⟨hS.1, hS.2, by decide⟩, ((hfirst "b" (by decide)).1 (by decide +kernel)).2, ?_, ?_⟩
  · rw [← hnull]
    decide +kernel
  · rw [← hnull']
    decide +kernel

end Grammar
end FrontEnd
