import FrontEnd.Proofs.Grammar.LeftCorner

/-! # What a derivation does with the first symbol

A text derives another one part by part. So a terminal that the text starts with stays where it is,
an `ε` vanishes, and a nonterminal is expanded, if what is derived starts with a terminal or is
empty. The terminal then selects the rule.

* `Derives.exists_append`: the parts of a text derive parts of the result.
* `Derives.of_terminal`, `Derives.of_epsilon`: a terminal and an `ε` in front.
* `Grammar.exists_rule_of_derives`: a nonterminal in front.
* `Grammar.SententialForm`: the texts that the start symbol derives.
-/

namespace FrontEnd
set_option autoImplicit false

variable {rules : List Rule}

/-! ## Parts -/

theorem Derives.exists_append {a b text : List Symbol} (h : Derives rules (a ++ b) text) :
    ∃ u v, text = u ++ v ∧ Derives rules a u ∧ Derives rules b v := by
  induction h with
  | refl => exact ⟨a, b, rfl, .refl a, .refl b⟩
  | tail _ hs ih =>
    obtain ⟨u, v, htext, hu, hv⟩ := ih
    generalize hsource : u ++ v = source at *
    subst htext
    cases hs with
    | @rule rule hr hε before after =>
      rcases append_eq_append_cons_iff.1 hsource with ⟨mid, rfl, rfl⟩ | ⟨mid, rfl, rfl⟩
      · refine ⟨before ++ (rule.right ++ mid), v, by simp, ?_, hv⟩
        exact hu.trans (Rewrites.rule hr hε before mid).derives
      · refine ⟨u, mid ++ (rule.right ++ after), by simp, hu, ?_⟩
        exact hv.trans (Rewrites.rule hr hε mid after).derives
    | vanish before after =>
      rcases append_eq_append_cons_iff.1 hsource with ⟨mid, rfl, rfl⟩ | ⟨mid, rfl, rfl⟩
      · exact ⟨before ++ mid, v, by simp, hu.trans (Rewrites.vanish before mid).derives, hv⟩
      · exact ⟨u, mid ++ after, by simp, hu, hv.trans (Rewrites.vanish mid after).derives⟩

/-- Where nothing can be rewritten, nothing changes. -/
theorem Derives.eq_of_isWord {a text : List Symbol} (h : Derives rules a text)
    (ha : IsWord rules a) : text = a := by
  induction h with
  | refl => rfl
  | tail _ hs ih =>
    subst ih
    cases hs with
    | @rule rule hr _ before after => exact absurd rfl ((ha rule.left (by simp)).2 rule hr)
    | vanish before after => exact absurd rfl (ha epsilon (by simp)).1

/-- From `ε` alone nothing but `ε` comes. -/
theorem Derives.eq_epsilon {a text : List Symbol} (h : Derives rules a text)
    (ha : ∀ symbol ∈ a, symbol = epsilon) : ∀ symbol ∈ text, symbol = epsilon := by
  induction h with
  | refl => exact ha
  | tail _ hs ih =>
    cases hs with
    | @rule rule _ hε before after => exact absurd (ih rule.left (by simp)) hε
    | vanish before after =>
      intro symbol hm
      refine ih symbol ?_
      rcases List.mem_append.1 hm with hm | hm <;> simp [hm]

theorem eq_nil_of_derives {a text : List Symbol} (h : Derives rules a text)
    (ha : ∀ symbol ∈ a, symbol = epsilon) (hε : epsilon ∉ text) : text = [] := by
  cases text with
  | nil => rfl
  | cons symbol text =>
    exact absurd (by simp [h.eq_epsilon ha symbol (by simp)]) hε

/-! ## The first symbol -/

theorem Derives.of_terminal {t : Symbol} {rest text : List Symbol}
    (h : Derives rules (t :: rest) text) (ht : IsWord rules [t]) :
    ∃ more, text = t :: more ∧ Derives rules rest more := by
  obtain ⟨u, v, rfl, hu, hv⟩ := exists_append (show Derives rules ([t] ++ rest) text from h)
  rw [hu.eq_of_isWord ht]
  exact ⟨v, rfl, hv⟩

theorem Derives.of_epsilon {rest text : List Symbol} (h : Derives rules (epsilon :: rest) text)
    (hε : epsilon ∉ text) : Derives rules rest text := by
  obtain ⟨u, v, rfl, hu, hv⟩ :=
    exists_append (show Derives rules ([epsilon] ++ rest) text from h)
  obtain rfl : u = [] := eq_nil_of_derives hu (by simp) fun hm => hε (by simp [hm])
  exact hv

/-- A symbol that does not stay is rewritten by a rule. -/
theorem Derives.exists_rule {symbol : Symbol} {text : List Symbol}
    (h : Derives rules [symbol] text) (hε : symbol ≠ epsilon) (hne : text ≠ [symbol]) :
    ∃ rule ∈ rules, rule.left = symbol ∧ Derives rules rule.right text := by
  rcases Relation.ReflTransGen.cases_head h with rfl | ⟨next, hs, hrest⟩
  · exact absurd rfl hne
  generalize hsource : [symbol] = source at hs
  cases hs with
  | @rule rule hr _ before after =>
    obtain ⟨rfl, rfl, rfl⟩ : before = [] ∧ symbol = rule.left ∧ after = [] := by
      cases before <;> simp_all
    rw [List.nil_append, List.append_nil] at hrest
    exact ⟨rule, hr, rfl, hrest⟩
  | vanish before after =>
    obtain rfl : symbol = epsilon := by
      cases before <;> simp_all
    exact absurd rfl hε

theorem derives_production_of_right {rule : Rule} {text : List Symbol}
    (h : Derives rules rule.right text) (hε : epsilon ∉ text) :
    Derives rules rule.production text := by
  unfold Rule.production
  split
  · rename_i he
    rw [eq_nil_of_derives h (by simpa [Rule.isEpsilon] using he) hε]
    exact .refl _
  · exact h

/-- All occurrences of `ε` can vanish. -/
theorem derives_filter (text : List Symbol) :
    Derives rules text (text.filter (· != epsilon)) := by
  induction text with
  | nil => exact .refl _
  | cons symbol text ih =>
    by_cases h : symbol = epsilon
    · subst h
      rw [List.filter_cons_of_neg (by simp)]
      exact (Rewrites.vanish [] text).derives.trans ih
    · rw [List.filter_cons_of_pos (by simpa using h)]
      exact (Derives.refl [symbol]).append ih

namespace Grammar
variable {g : Grammar}

/-! ## Sentential forms -/

/-- The start symbol derives the text, if `ε` is left out. -/
def SententialForm (g : Grammar) (text : List Symbol) : Prop :=
  ∃ full, Derives g.rules [g.start] full ∧ full.filter (· != epsilon) = text

theorem sententialForm_iff {text : List Symbol} :
    g.SententialForm text ↔ Derives g.rules [g.start] text ∧ epsilon ∉ text := by
  constructor
  · rintro ⟨full, hd, rfl⟩
    exact ⟨hd.trans (derives_filter full), by simp⟩
  · rintro ⟨hd, hε⟩
    refine ⟨text, hd, List.filter_eq_self.2 fun symbol hs => ?_⟩
    have hne : symbol ≠ epsilon := ne_of_mem_of_not_mem hs hε
    simpa using hne

/-! ## A nonterminal in front -/

theorem isNonterminal_start (g : Grammar) : g.isNonterminal g.start = true :=
  isNonterminal_left (List.head_mem g.nonempty)

/-- What comes next behind a symbol follows it. -/
theorem mem_followSets_of_derives (hε : ∀ rule ∈ g.rules, rule.left ≠ epsilon)
    {front rest text : List Symbol} {symbol t : Symbol} (hn : g.isNonterminal symbol = true)
    (hstart : Derives g.rules [g.start] (front ++ symbol :: rest)) (hd : Derives g.rules rest text)
    (ht : (text ++ [endMarker]).head? = some t) (hterminal : text ≠ [] → g.isTerminal t = true) :
    t ∈ (g.followSets g.firstSets).lookup symbol := by
  have hnext : Derives g.rules [g.start] (front ++ symbol :: text) := by
    have hstep := hd.around (front ++ [symbol]) []
    simp only [List.append_nil, List.append_assoc, List.singleton_append] at hstep
    exact hstart.trans hstep
  refine (mem_followSets_iff hε hn).2 ?_
  cases text with
  | nil => exact Or.inr ⟨by simpa using ht.symm, front, hnext⟩
  | cons next text =>
    obtain rfl : next = t := by simpa using ht
    have hin := mem_terminals_of_derives g.isNonterminal_start (hterminal (by simp)) hnext (by simp)
    exact Or.inl ⟨hin, g.start, g.isNonterminal_start, front, text, hnext⟩

/-- In front of what is derived a nonterminal is expanded with a rule that the next terminal
selects. At the end of the text the end marker comes next. -/
theorem exists_rule_of_derives (hε : ∀ rule ∈ g.rules, rule.left ≠ epsilon)
    {front rest text : List Symbol} {symbol t : Symbol} (hn : g.isNonterminal symbol = true)
    (hstart : Derives g.rules [g.start] (front ++ symbol :: rest))
    (hd : Derives g.rules (symbol :: rest) text) (htext : epsilon ∉ text)
    (ht : (text ++ [endMarker]).head? = some t) (hterminal : text ≠ [] → g.isTerminal t = true) :
    ∃ rule ∈ g.rules, rule.left = symbol ∧ t ∈ g.select rule ∧
      Derives g.rules (rule.production ++ rest) text := by
  obtain ⟨u, v, rfl, hu, hv⟩ :=
    Derives.exists_append (show Derives g.rules ([symbol] ++ rest) text from hd)
  have hne := ne_epsilon_of_isNonterminal (isNonterminal_eq_false_iff.2 hε) hn
  have hstay : u ≠ [symbol] := by
    rintro rfl
    obtain rfl : symbol = t := by simpa using ht
    have hfalse := Tree.isTerminal_of_isNonterminal hn
    rw [hterminal (by simp)] at hfalse
    exact absurd hfalse (by simp)
  obtain ⟨rule, hr, rfl, hright⟩ := hu.exists_rule hne hstay
  refine ⟨rule, hr, rfl, ?_, ?_⟩
  · cases u with
    | nil =>
      exact mem_select.2 (Or.inr ⟨mem_firstOf_firstSets_iff.2 (Or.inl ⟨rfl, hright⟩),
        mem_followSets_of_derives hε hn hstart hv ht hterminal⟩)
    | cons next u =>
      obtain rfl : next = t := by simpa using ht
      have hnext := hterminal (by simp)
      exact mem_select.2 (Or.inl ⟨isTerminal_ne_epsilon hnext,
        mem_firstOf_firstSets_iff.2 (Or.inr ⟨hnext, u, hright⟩)⟩)
  · exact (derives_production_of_right hright fun hm => htext (by simp [hm])).append hv

end Grammar
end FrontEnd
