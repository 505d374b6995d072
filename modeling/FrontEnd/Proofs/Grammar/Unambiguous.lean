import FrontEnd.Proofs.Grammar.Derivation

/-! # Grammars without conflicts are unambiguous

Without conflicts the next terminal decides which rule a nonterminal is expanded with, so a
derivation is determined by the text that it stands in front of.

* `Grammar.rule_eq_of_head`: two rules of a nonterminal that foresee the same terminal are equal.
* `Tree.IsDetermined`: no other derivation of the symbol starts the same text.
* `Tree.IsDerivation.isDetermined`: this holds of every derivation.
* `Tree.IsDerivation.outline_eq_of_word_eq`: no word has two derivations.
-/

namespace FrontEnd
set_option autoImplicit false

variable {g : Grammar}

theorem Grammar.rule_eq_of_head (hg : g.table.conflicts = []) {a b : Rule} (ha : a ∈ g.rules)
    (hb : b ∈ g.rules) (hl : a.left = b.left) {t : Symbol} (hat : t ∈ g.select a)
    (hbt : t ∈ g.select b) : a = b := by
  obtain ⟨i, hi⟩ := List.getElem?_of_mem ha
  obtain ⟨j, hj⟩ := List.getElem?_of_mem hb
  have h1 := Grammar.cell?_of_mem_select hg hi hat
  have h2 := Grammar.cell?_of_mem_select hg hj hbt
  rw [hl, h2] at h1
  obtain rfl : j = i := by simpa using h1
  exact Option.some.inj (hi.symm.trans hj)

namespace Tree

/-- Derivations of the same symbol that start the same text have the same outline, if what is left
of the text may follow the symbol. -/
def IsDetermined (g : Grammar) (tree : Tree) : Prop :=
  ∀ other : Tree, other.IsDerivation g → tree.symbol = other.symbol →
    ∀ r s : List Symbol, tree.word g ++ r = other.word g ++ s →
      (g.isNonterminal tree.symbol = true → g.Follows tree.symbol r ∧ g.Follows tree.symbol s) →
      tree.outline = other.outline

/-- Two forests of the same symbols below one rule agree tree by tree. -/
theorem forestOutline_eq_of_isDetermined (hε : g.isNonterminal epsilon = false) {rule : Rule}
    (hr : rule ∈ g.rules) {trees others : List Tree} {before : List Symbol}
    (ht : ∀ tree ∈ trees, tree.IsDerivation g) (ho : ∀ tree ∈ others, tree.IsDerivation g)
    (hd : ∀ tree ∈ trees, tree.IsDetermined g)
    (hp : before ++ trees.map (·.symbol) = rule.production)
    (hs : trees.map (·.symbol) = others.map (·.symbol)) {r s : List Symbol}
    (hw : forestWord g trees ++ r = forestWord g others ++ s)
    (hf : g.Follows rule.left r) (hf' : g.Follows rule.left s) :
    forestOutline trees = forestOutline others := by
  induction trees generalizing others before with
  | nil =>
    cases others with
    | nil => rfl
    | cons other others => simp at hs
  | cons tree trees ih =>
    cases others with
    | nil => simp at hs
    | cons other others =>
      have hs1 : tree.symbol = other.symbol := (List.cons.inj hs).1
      have hs2 : trees.map (·.symbol) = others.map (·.symbol) := (List.cons.inj hs).2
      have ht' := fun x hx => ht x (List.mem_cons_of_mem tree hx)
      have ho' := fun x hx => ho x (List.mem_cons_of_mem other hx)
      rw [forestWord_cons, forestWord_cons, List.append_assoc, List.append_assoc] at hw
      have h1 : tree.outline = other.outline := by
        refine hd tree (by simp) other (ho other (by simp)) hs1 _ _ hw fun hn => ⟨?_, ?_⟩
        · exact g.follows_child hε hr hp ht' hf hn
        · rw [List.map_cons, hs1, hs2] at hp
          rw [hs1] at hn ⊢
          exact g.follows_child hε hr hp ho' hf' hn
      have hword : tree.word g = other.word g := by
        rw [← word_outline tree, h1, word_outline]
      rw [hword, List.append_cancel_left_eq] at hw
      have hp2 : (before ++ [tree.symbol]) ++ trees.map (·.symbol) = rule.production := by
        rw [List.append_assoc]
        exact hp
      have h2 := ih ht' ho' (fun x hx => hd x (List.mem_cons_of_mem tree hx)) hp2 hs2 hw
      rw [forestOutline, forestOutline, h1, h2]

theorem IsDerivation.isDetermined (hg : g.table.conflicts = [])
    (hε : g.isNonterminal epsilon = false) {tree : Tree} (ht : tree.IsDerivation g) :
    tree.IsDetermined g := by
  induction ht with
  | @leaf symbol line value hn =>
    intro other ho hs r s hw hf
    have hc := ho.eq_leaf (hs ▸ hn)
    cases other
    obtain rfl : symbol = _ := hs
    obtain rfl : _ = [] := hc
    rfl
  | @node rule line value children hr hp hc ih =>
    intro other ho hs r s hw hf
    cases ho with
    | leaf _ _ hn =>
      obtain rfl : rule.left = _ := hs
      rw [Grammar.isNonterminal_left hr] at hn
      exact absurd hn (by simp)
    | @node rule' line' value' children' hr' hp' hc' =>
      have hl : rule.left = rule'.left := hs
      have hN := Grammar.isNonterminal_left hr
      obtain ⟨hf1, hf2⟩ := hf hN
      have hf3 := hf2
      rw [hl] at hf3
      rw [word, leaves_of_not_terminal (isTerminal_of_isNonterminal hN), word,
        leaves_of_not_terminal
          (isTerminal_of_isNonterminal (Grammar.isNonterminal_left hr'))] at hw
      change forestWord g children ++ r = forestWord g children' ++ s at hw
      obtain ⟨t, ht1, ht2⟩ := g.exists_head_mem_select hε hp hc hf1
      obtain ⟨t', ht1', ht2'⟩ := g.exists_head_mem_select hε hp' hc' hf3
      rw [hw, ht1'] at ht1
      obtain rfl : t' = t := Option.some.inj ht1
      obtain rfl : rule = rule' := g.rule_eq_of_head hg hr hr' hl ht2 ht2'
      have hp0 : [] ++ children.map (·.symbol) = rule.production := hp
      have h := forestOutline_eq_of_isDetermined hε hr hc hc' ih hp0 (hp.trans hp'.symm) hw hf1 hf2
      rw [outline, outline, h]

/-- A word has one derivation from the start symbol. -/
theorem IsDerivation.outline_eq_of_word_eq (hg : g.table.conflicts = [])
    (hε : g.isNonterminal epsilon = false) {tree other : Tree} (ht : tree.IsDerivation g)
    (ho : other.IsDerivation g) (hstart : tree.symbol = g.start)
    (hs : other.symbol = tree.symbol) (hw : other.word g = tree.word g) :
    other.outline = tree.outline := by
  have hend : g.Follows tree.symbol [endMarker] :=
    ⟨endMarker, rfl, hstart ▸ g.endMarker_mem_followSets⟩
  refine ((ht.isDetermined hg hε) other ho hs.symm [endMarker] [endMarker] ?_ ?_).symm
  · rw [hw]
  · exact fun _ => ⟨hend, hend⟩

end Tree
end FrontEnd
