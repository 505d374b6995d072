import FrontEnd.Proofs.Grammar.FollowMeaning
import FrontEnd.Proofs.Grammar.Unambiguous

/-! # Grammars without conflicts have no left cycles

Where a terminal comes next, a nonterminal is expanded with a rule that selects the terminal, and so
are the symbols that its right side can then start with. Without conflicts this goes on for finitely
many levels only, even if the terminal is never reached.

* `Grammar.Vanishes`, `Grammar.Selects`: a symbol can be empty; a nonterminal has a rule for the
  terminal.
* `Grammar.not_mem_followSets`: nothing that a vanishing nonterminal can start with follows it.
* `Grammar.LeftCorner`: a symbol is the next one to be expanded below another.
* `Grammar.wellFounded_leftCorner`: there is no infinite descent along left corners.
-/

namespace FrontEnd
set_option autoImplicit false

namespace Grammar
variable {g : Grammar}

/-! ## Texts that vanish, texts that start with a terminal -/

theorem epsilon_mem_firstOf_iff {first : SetMap} {text : List Symbol} :
    epsilon ∈ g.firstOf first text ↔ ∀ symbol ∈ text, g.Begins first symbol epsilon := by
  induction text with
  | nil => simp [mem_firstOf_nil]
  | cons symbol text ih => simp [mem_firstOf_cons, ih]

/-- A text starts with what one of its symbols starts with, if those before it vanish. -/
theorem exists_begins_of_mem_firstOf {first : SetMap} {text : List Symbol} {t : Symbol}
    (hne : t ≠ epsilon) (h : t ∈ g.firstOf first text) :
    ∃ before symbol after, text = before ++ symbol :: after ∧
      (∀ other ∈ before, g.Begins first other epsilon) ∧ g.Begins first symbol t := by
  induction text with
  | nil => exact absurd (mem_firstOf_nil.1 h) hne
  | cons symbol text ih =>
    rcases mem_firstOf_cons.1 h with ⟨-, hb⟩ | ⟨hv, ht⟩
    · exact ⟨[], symbol, text, rfl, by simp, hb⟩
    · obtain ⟨before, other, after, rfl, hbefore, hb⟩ := ih ht
      exact ⟨symbol :: before, other, after, rfl, by simpa using ⟨hv, hbefore⟩, hb⟩

theorem mem_firstOf_of_begins {first : SetMap} {before after : List Symbol} {symbol t : Symbol}
    (hne : t ≠ epsilon) (hbefore : ∀ other ∈ before, g.Begins first other epsilon)
    (h : g.Begins first symbol t) : t ∈ g.firstOf first (before ++ symbol :: after) :=
  mem_firstOf_append.2 (Or.inr ⟨epsilon_mem_firstOf_iff.2 hbefore,
    mem_firstOf_cons.2 (Or.inl ⟨hne, h⟩)⟩)

/-- Only a nonterminal can vanish and can also start with a terminal. -/
theorem isNonterminal_of_begins {first sets : SetMap} {symbol t : Symbol} (hne : t ≠ epsilon)
    (ht : g.Begins first symbol t) (hv : g.Begins sets symbol epsilon) :
    symbol ≠ epsilon ∧ g.isNonterminal symbol = true := by
  have hε : symbol ≠ epsilon := by
    rintro rfl
    exact hne (begins_epsilon.1 ht)
  refine ⟨hε, ?_⟩
  cases hn : g.isNonterminal symbol with
  | true => rfl
  | false => exact absurd ((begins_terminal hε hn).1 hv).symm hε

/-- The symbol can be the empty text. -/
def Vanishes (g : Grammar) (symbol : Symbol) : Prop := g.Begins g.firstSets symbol epsilon

theorem vanishes_left (hε : ∀ rule ∈ g.rules, rule.left ≠ epsilon) {rule : Rule}
    (hr : rule ∈ g.rules) (h : ∀ symbol ∈ rule.production, g.Vanishes symbol) :
    g.Vanishes rule.left := by
  refine (begins_nonterminal (hε rule hr) (isNonterminal_left hr)).2 ?_
  refine mem_firstSets_of_mem_firstOf hr ?_
  rw [← firstOf_production]
  exact epsilon_mem_firstOf_iff.2 h

/-- What vanishes in front of a text takes nothing from what can come next. -/
theorem mem_firstBefore_of_vanishes {after : SymbolSet} {before rest : List Symbol} {t : Symbol}
    (hbefore : ∀ symbol ∈ before, g.Vanishes symbol)
    (h : t ∈ g.firstBefore g.firstSets after rest) :
    t ∈ g.firstBefore g.firstSets after (before ++ rest) :=
  firstBefore_append.2
    (mem_firstBefore.2 (Or.inr ⟨epsilon_mem_firstOf_iff.2 hbefore, h⟩))

/-! ## Selection -/

theorem mem_select {rule : Rule} {t : Symbol} :
    t ∈ g.select rule ↔
      t ≠ epsilon ∧ t ∈ g.firstOf g.firstSets rule.right ∨
        epsilon ∈ g.firstOf g.firstSets rule.right ∧
          t ∈ (g.followSets g.firstSets).lookup rule.left :=
  mem_firstBefore

/-- The nonterminal has a rule that `t` leads to. -/
def Selects (g : Grammar) (symbol t : Symbol) : Prop :=
  ∃ rule ∈ g.rules, rule.left = symbol ∧ t ∈ g.select rule

theorem Selects.of_mem_firstSets {symbol t : Symbol} (hne : t ≠ epsilon)
    (h : t ∈ g.firstSets.lookup symbol) : g.Selects symbol t := by
  obtain ⟨rule, hr, hl, ht⟩ := exists_rule_of_mem_firstSets h
  exact ⟨rule, hr, hl, mem_select.2 (Or.inl ⟨hne, ht⟩)⟩

theorem Selects.of_mem_followSets {symbol t : Symbol}
    (hv : epsilon ∈ g.firstSets.lookup symbol)
    (h : t ∈ (g.followSets g.firstSets).lookup symbol) : g.Selects symbol t := by
  obtain ⟨rule, hr, rfl, ht⟩ := exists_rule_of_mem_firstSets hv
  exact ⟨rule, hr, rfl, mem_select.2 (Or.inr ⟨ht, h⟩)⟩

theorem Selects.cases {symbol t : Symbol} (h : g.Selects symbol t) :
    t ≠ epsilon ∧ t ∈ g.firstSets.lookup symbol ∨
      epsilon ∈ g.firstSets.lookup symbol ∧
        t ∈ (g.followSets g.firstSets).lookup symbol := by
  obtain ⟨rule, hr, rfl, ht⟩ := h
  exact (mem_select.1 ht).imp (And.imp_right (mem_firstSets_of_mem_firstOf hr))
    (And.imp_left (mem_firstSets_of_mem_firstOf hr))

theorem epsilon_not_mem_followSets (hε : ∀ rule ∈ g.rules, rule.left ≠ epsilon)
    (symbol : Symbol) : epsilon ∉ (g.followSets g.firstSets).lookup symbol := by
  intro h
  rcases followSets_holds hε symbol epsilon h with ⟨ht, -⟩ | ⟨he, -⟩
  · exact isTerminal_ne_epsilon (mem_terminals.1 ht).2 rfl
  · exact absurd he (by decide)

theorem ne_epsilon_of_mem_select (hε : ∀ rule ∈ g.rules, rule.left ≠ epsilon) {rule : Rule}
    {t : Symbol} (h : t ∈ g.select rule) : t ≠ epsilon := by
  rintro rfl
  rcases mem_select.1 h with ⟨hne, -⟩ | ⟨-, hf⟩
  · exact hne rfl
  · exact epsilon_not_mem_followSets hε _ hf

theorem Selects.exists_cell? (hg : g.table.conflicts = []) {symbol t : Symbol}
    (h : g.Selects symbol t) : ∃ index, g.table.cell? symbol t = some (.expand index) := by
  obtain ⟨rule, hr, rfl, ht⟩ := h
  obtain ⟨index, hindex⟩ := List.getElem?_of_mem hr
  exact ⟨index, cell?_of_mem_select hg hindex ht⟩

theorem Selects.isNonterminal {symbol t : Symbol} (h : g.Selects symbol t) :
    g.isNonterminal symbol = true := by
  obtain ⟨rule, hr, rfl, -⟩ := h
  exact isNonterminal_left hr

/-! ## Symbols that vanish -/

section
variable (hg : g.table.conflicts = []) {t : Symbol} (hne : t ≠ epsilon)
include hg hne

/-- Nothing that a vanishing nonterminal can start with follows it: the rules for both would
collide. -/
theorem not_mem_followSets {symbol : Symbol} (hv : epsilon ∈ g.firstSets.lookup symbol)
    (ht : t ∈ g.firstSets.lookup symbol) : t ∉ (g.followSets g.firstSets).lookup symbol := by
  have hall : g.firstSets.Holds fun s x => t = x → epsilon ∈ g.firstSets.lookup s →
      t ∉ (g.followSets g.firstSets).lookup s := by
    refine firstSets_induction ?_
    rintro rule hr first hle hf _ hfirst rfl hv hfollow
    -- The rule that lets the left side vanish is this one, so its right side vanishes.
    obtain ⟨other, ho, hl, hvanish⟩ := exists_rule_of_mem_firstSets hv
    obtain rfl : rule = other := g.rule_eq_of_head hg hr ho hl.symm
      (mem_select.2 (Or.inl ⟨hne, firstOf_mono hle hfirst⟩))
      (mem_select.2 (Or.inr ⟨hvanish, hl ▸ hfollow⟩))
    obtain ⟨before, symbol, after, hright, -, hb⟩ := exists_begins_of_mem_firstOf hne hfirst
    rw [hright, epsilon_mem_firstOf_iff] at hvanish
    have hs : g.Begins g.firstSets symbol epsilon := hvanish symbol (by simp)
    obtain ⟨hε, hn⟩ := isNonterminal_of_begins hne hb hs
    refine hf symbol _ ((begins_nonterminal hε hn).1 hb) rfl ((begins_nonterminal hε hn).1 hs) ?_
    refine mem_followSets hr hright hn (mem_firstBefore.2 (Or.inr ⟨?_, hfollow⟩))
    exact epsilon_mem_firstOf_iff.2 fun other ho => hvanish other (by simp [ho])
  exact hall symbol t ht rfl hv

theorem not_begins_of_follows {symbol : Symbol} (hn : g.isNonterminal symbol = true)
    (hv : g.Vanishes symbol)
    (ht : t ∈ (g.followSets g.firstSets).lookup symbol) : ¬g.Begins g.firstSets symbol t := by
  intro hb
  have hε := (isNonterminal_of_begins hne hb hv).1
  exact not_mem_followSets hg hne ((begins_nonterminal hε hn).1 hv)
    ((begins_nonterminal hε hn).1 hb) ht

/-- Behind a symbol that vanishes and can start with `t` nothing else can, as long as all before it
vanishes. -/
theorem not_begins_behind {rule : Rule} (hr : rule ∈ g.rules) {before mid after : List Symbol}
    {symbol next : Symbol} (hright : rule.right = before ++ symbol :: (mid ++ next :: after))
    (hv : g.Vanishes symbol) (hmid : ∀ other ∈ mid, g.Vanishes other)
    (ht : g.Begins g.firstSets symbol t) : ¬g.Begins g.firstSets next t := by
  intro hnext
  obtain ⟨hε, hn⟩ := isNonterminal_of_begins hne ht hv
  refine not_mem_followSets hg hne ((begins_nonterminal hε hn).1 hv)
    ((begins_nonterminal hε hn).1 ht) (mem_followSets hr hright hn ?_)
  exact mem_firstBefore.2 (Or.inl ⟨hne, mem_firstOf_of_begins hne hmid hnext⟩)

/-- Only one symbol of a right side can start with `t` when those before it have vanished. -/
theorem begins_once {rule : Rule} (hr : rule ∈ g.rules) {before after front rest : List Symbol}
    {symbol other : Symbol} (hright : rule.right = before ++ symbol :: after)
    (hright' : rule.right = front ++ other :: rest)
    (hbefore : ∀ x ∈ before, g.Vanishes x) (hfront : ∀ x ∈ front, g.Vanishes x)
    (ht : g.Begins g.firstSets symbol t) (ht' : g.Begins g.firstSets other t) :
    symbol = other := by
  rcases append_eq_append_cons_iff.1 (hright.symm.trans hright') with
    ⟨mid, rfl, rfl⟩ | ⟨mid, rfl, hbehind⟩
  · exact absurd ht (not_begins_behind hg hne hr hright' (hbefore other (by simp))
      (fun x hx => hbefore x (by simp [hx])) ht')
  cases mid with
  | nil => exact (List.cons.inj hbehind).1
  | cons next mid =>
    obtain ⟨rfl, rfl⟩ := List.cons.inj hbehind
    exact absurd ht' (not_begins_behind hg hne hr hright (hfront symbol (by simp))
      (fun x hx => hfront x (by simp [hx])) ht)

end

/-! ## Left corners -/

/-- Where `t` comes next, `outer` is expanded with a rule whose right side starts with `inner` once
the symbols before it have vanished, and `inner` is expanded too. -/
def LeftCorner (g : Grammar) (t inner outer : Symbol) : Prop :=
  ∃ rule ∈ g.rules, rule.left = outer ∧ t ∈ g.select rule ∧
    (∃ before after, rule.right = before ++ inner :: after ∧
      ∀ symbol ∈ before, g.Vanishes symbol) ∧
    g.Selects inner t

section
variable (hg : g.table.conflicts = []) (hε : g.isNonterminal epsilon = false) {t : Symbol}
  (hne : t ≠ epsilon)
include hg hε hne

/-- Below a nonterminal that vanishes and cannot start with `t` all left corners are such. -/
theorem acc_leftCorner_of_vanishes {symbol : Symbol} (hv : epsilon ∈ g.firstSets.lookup symbol)
    (ht : t ∉ g.firstSets.lookup symbol) : Acc (g.LeftCorner t) symbol := by
  have hall : g.firstSets.Holds fun s x => x = epsilon → t ∉ g.firstSets.lookup s →
      Acc (g.LeftCorner t) s := by
    refine firstSets_induction ?_
    rintro rule hr first hle hf _ hvanish rfl hnot
    refine Acc.intro _ fun inner hinner => ?_
    obtain ⟨other, ho, hl, hs, ⟨before, after, hright, hbefore⟩, hinner⟩ := hinner
    have hstart : t ∉ g.firstOf g.firstSets other.right := fun h =>
      hnot (hl ▸ mem_firstSets_of_mem_firstOf ho h)
    have hfollow : t ∈ (g.followSets g.firstSets).lookup rule.left := by
      rcases mem_select.1 hs with ⟨-, h⟩ | ⟨-, h⟩
      · exact absurd h hstart
      · exact hl ▸ h
    obtain rfl : rule = other := g.rule_eq_of_head hg hr ho hl.symm
      (mem_select.2 (Or.inr ⟨firstOf_mono hle hvanish, hfollow⟩)) hs
    have hn := hinner.isNonterminal
    have hinnerε := ne_epsilon_of_isNonterminal hε hn
    have hb : g.Begins first inner epsilon :=
      epsilon_mem_firstOf_iff.1 hvanish inner (by rw [hright]; simp)
    refine hf inner _ ((begins_nonterminal hinnerε hn).1 hb) rfl fun h => hstart ?_
    rw [hright]
    exact mem_firstOf_of_begins hne hbefore ((begins_nonterminal hinnerε hn).2 h)
  exact hall symbol epsilon hv rfl ht

/-- The left corner that `t` comes from is nearer to it; the others vanish. -/
theorem acc_leftCorner_of_mem_firstSets {symbol : Symbol} (ht : t ∈ g.firstSets.lookup symbol) :
    Acc (g.LeftCorner t) symbol := by
  have hall : g.firstSets.Holds fun s x => t = x → Acc (g.LeftCorner t) s := by
    refine firstSets_induction ?_
    rintro rule hr first hle hf _ hfirst rfl
    refine Acc.intro _ fun inner hinner => ?_
    obtain ⟨other, ho, hl, hs, ⟨before, after, hright, hbefore⟩, hinner⟩ := hinner
    obtain rfl : rule = other := g.rule_eq_of_head hg hr ho hl.symm
      (mem_select.2 (Or.inl ⟨hne, firstOf_mono hle hfirst⟩)) hs
    have hn := hinner.isNonterminal
    have hinnerε := ne_epsilon_of_isNonterminal hε hn
    by_cases hin : t ∈ g.firstSets.lookup inner
    · obtain ⟨front, symbol, rest, hright', hfront, hb⟩ :=
        exists_begins_of_mem_firstOf hne hfirst
      obtain rfl : inner = symbol := begins_once hg hne hr hright hright' hbefore
        (fun x hx => (hfront x hx).mono hle) ((begins_nonterminal hinnerε hn).2 hin) (hb.mono hle)
      exact hf inner _ ((begins_nonterminal hinnerε hn).1 hb) rfl
    · have hv := (hinner.cases.resolve_left fun h => hin h.2).1
      exact acc_leftCorner_of_vanishes hg hε hne hv hin
  exact hall symbol t ht rfl

end

/-- Without conflicts, left corners never lead on for ever. -/
theorem wellFounded_leftCorner (hg : g.table.conflicts = [])
    (hε : ∀ rule ∈ g.rules, rule.left ≠ epsilon) (t : Symbol) :
    WellFounded (g.LeftCorner t) := by
  refine ⟨fun outer => Acc.intro _ fun inner hinner => ?_⟩
  obtain ⟨rule, -, -, hs, -, hselects⟩ := hinner
  have hn := isNonterminal_eq_false_iff.2 hε
  have hne := ne_epsilon_of_mem_select hε hs
  by_cases ht : t ∈ g.firstSets.lookup inner
  · exact acc_leftCorner_of_mem_firstSets hg hn hne ht
  · have hv := (hselects.cases.resolve_left fun h => ht h.2).1
    exact acc_leftCorner_of_vanishes hg hn hne hv ht

end Grammar
end FrontEnd
