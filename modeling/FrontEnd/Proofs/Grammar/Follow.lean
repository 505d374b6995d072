import FrontEnd.Proofs.Grammar.First

/-! # FOLLOW is closed under the rules

* `Grammar.mem_firstBefore`: what can come next is what the symbols start with or, if they all
  vanish, what comes after them.
* `Grammar.mem_followSets`: what comes next behind a nonterminal of a right side is in its FOLLOW.
* `Grammar.endMarker_mem_followSets`: the end marker is in FOLLOW of the start symbol.
-/

namespace FrontEnd
set_option autoImplicit false

namespace Grammar
variable {g : Grammar}

theorem mem_firstBefore {first : SetMap} {after : SymbolSet} {symbols : List Symbol}
    {t : Symbol} :
    t ∈ g.firstBefore first after symbols ↔
      t ≠ epsilon ∧ t ∈ g.firstOf first symbols ∨
        epsilon ∈ g.firstOf first symbols ∧ t ∈ after := by
  unfold firstBefore
  simp only [Std.TreeSet.contains_iff_mem]
  by_cases he : epsilon ∈ g.firstOf first symbols
  · rw [if_pos he, SymbolSet.mem_union, SymbolSet.mem_erase]
    simp only [he, true_and]
  · rw [if_neg he]
    simp only [he, false_and, or_false]
    exact ⟨fun h => ⟨fun e => he (e ▸ h), h⟩, And.right⟩

theorem mem_firstBefore_cons {first : SetMap} {after : SymbolSet} {symbol t : Symbol}
    {rest : List Symbol} :
    t ∈ g.firstBefore first after (symbol :: rest) ↔
      t ≠ epsilon ∧ g.Begins first symbol t ∨
        g.Begins first symbol epsilon ∧ t ∈ g.firstBefore first after rest := by
  simp only [mem_firstBefore, mem_firstOf_cons]
  grind

/-! ## Contributions -/

/-- What the symbols of a right side of `left` contribute to FOLLOW. -/
def followContributionsAlong (g : Grammar) (first : SetMap) (left : Symbol) :
    List Symbol → List Contribution
  | [] => []
  | symbol :: rest =>
    if g.isNonterminal symbol then
      ⟨symbol, fun follow => g.firstBefore first (follow.lookup left) rest⟩ ::
        g.followContributionsAlong first left rest
    else g.followContributionsAlong first left rest

theorem mem_followContributionsAlong {first : SetMap} {left : Symbol} {symbols : List Symbol}
    {c : Contribution} :
    c ∈ g.followContributionsAlong first left symbols ↔
      ∃ before symbol rest, symbols = before ++ symbol :: rest ∧
        g.isNonterminal symbol = true ∧
        c = ⟨symbol, fun follow => g.firstBefore first (follow.lookup left) rest⟩ := by
  induction symbols with
  | nil => simp [followContributionsAlong]
  | cons head tail ih =>
    have hrest : (∃ before symbol rest, tail = before ++ symbol :: rest ∧
        g.isNonterminal symbol = true ∧
        c = ⟨symbol, fun follow => g.firstBefore first (follow.lookup left) rest⟩) ↔
        ∃ before symbol rest, head :: tail = (head :: before) ++ symbol :: rest ∧
          g.isNonterminal symbol = true ∧
          c = ⟨symbol, fun follow => g.firstBefore first (follow.lookup left) rest⟩ := by
      simp
    constructor
    · intro h
      unfold followContributionsAlong at h
      split at h
      · rename_i hn
        rcases List.mem_cons.1 h with rfl | h
        · exact ⟨[], head, tail, rfl, hn, rfl⟩
        · obtain ⟨before, hb⟩ := hrest.1 (ih.1 h)
          exact ⟨head :: before, hb⟩
      · obtain ⟨before, hb⟩ := hrest.1 (ih.1 h)
        exact ⟨head :: before, hb⟩
    · rintro ⟨before, symbol, rest, hs, hn, rfl⟩
      unfold followContributionsAlong
      cases before with
      | nil =>
        obtain ⟨rfl, rfl⟩ := List.cons.inj hs
        rw [if_pos hn]
        exact List.mem_cons_self
      | cons b before =>
        have h := ih.2 ⟨before, symbol, rest, (List.cons.inj hs).2, hn, rfl⟩
        split
        · exact List.mem_cons_of_mem _ h
        · exact h

def followContributions (g : Grammar) (first : SetMap) : List Contribution :=
  g.rules.flatMap fun rule => g.followContributionsAlong first rule.left rule.right

theorem growFollowAlong_eq_pass (g : Grammar) (first : SetMap) (left : Symbol)
    (symbols : List Symbol) (follow : SetMap) :
    g.growFollowAlong first left symbols follow =
      SetMap.pass (g.followContributionsAlong first left symbols) follow := by
  induction symbols generalizing follow with
  | nil => rfl
  | cons symbol rest ih =>
    rw [growFollowAlong, ih, followContributionsAlong]
    split <;> rfl

theorem growFollow_eq_pass (g : Grammar) (first : SetMap) :
    g.growFollow first = SetMap.pass (g.followContributions first) := by
  funext follow
  unfold growFollow SetMap.pass followContributions
  rw [List.foldl_flatMap]
  simp only [growFollowAlong_eq_pass]
  rfl

/-! ## The sets -/

theorem mem_followContributions {first : SetMap} {c : Contribution} :
    c ∈ g.followContributions first ↔
      ∃ rule ∈ g.rules, ∃ before symbol rest, rule.right = before ++ symbol :: rest ∧
        g.isNonterminal symbol = true ∧
        c = ⟨symbol, fun follow => g.firstBefore first (follow.lookup rule.left) rest⟩ := by
  simp only [followContributions, List.mem_flatMap, mem_followContributionsAlong]

/-- FOLLOW only ever holds the end marker and terminals, for nonterminals. -/
theorem followContributions_within {c : Contribution}
    (hc : c ∈ g.followContributions g.firstSets) :
    c.target ∈ g.nonterminals ∧
      ∀ sets : SetMap, sets.Within g.nonterminals (endMarker :: g.terminals.toList) →
        ∀ t ∈ c.found sets, t ∈ endMarker :: g.terminals.toList := by
  obtain ⟨rule, hr, before, symbol, rest, hs, hn, rfl⟩ := mem_followContributions.1 hc
  refine ⟨mem_nonterminals hn, fun sets hw t ht => ?_⟩
  rcases mem_firstBefore.1 ht with ⟨hne, ht⟩ | ⟨-, ht⟩
  · have hm : t ∈ epsilon :: g.terminals.toList := by
      refine mem_candidates_of_mem_firstOf (fun s t ht => (g.firstSets_closed.2 s t ht).2) ?_ ht
      intro s hm ht
      have hm' : s ∈ rule.right := by rw [hs]; simp [hm]
      exact Std.TreeSet.mem_toList.2 (mem_terminals.2 ⟨⟨rule, hr, hm'⟩, ht⟩)
    exact List.mem_cons_of_mem _ ((List.mem_cons.1 hm).resolve_left hne)
  · exact (hw _ t ht).2

/-- FOLLOW before the first pass. -/
def followStart (g : Grammar) : SetMap := (SetMap.empty g.nonterminals).add g.start {endMarker}

theorem mem_followStart {s t : Symbol} :
    t ∈ g.followStart.lookup s ↔ s = g.start ∧ t = endMarker := by
  rw [followStart, SetMap.mem_lookup_add, or_iff_right SetMap.not_mem_lookup_empty,
    SymbolSet.mem_singleton]

theorem within_followStart (g : Grammar) :
    g.followStart.Within g.nonterminals (endMarker :: g.terminals.toList) := by
  intro s t ht
  obtain ⟨rfl, rfl⟩ := mem_followStart.1 ht
  exact ⟨mem_nonterminals (isNonterminal_left (List.head_mem g.nonempty)), List.mem_cons_self⟩

theorem followSets_eq (g : Grammar) (first : SetMap) :
    g.followSets first =
      settle (SetMap.missing g.nonterminals (endMarker :: g.terminals.toList))
        (SetMap.pass (g.followContributions first)) g.followStart := by
  rw [followSets, growFollow_eq_pass, followStart]

theorem followSets_closed (g : Grammar) :
    SetMap.Le g.followStart (g.followSets g.firstSets) ∧
      SetMap.Closed (g.followContributions g.firstSets) (g.followSets g.firstSets) := by
  rw [followSets_eq]
  refine And.imp_right And.left (SetMap.settle_closed ?_
    (fun _ => followContributions_within) g.within_followStart)
  intro c hc
  obtain ⟨rule, -, before, symbol, rest, -, -, rfl⟩ := mem_followContributions.1 hc
  intro a b h t ht
  rcases mem_firstBefore.1 ht with ht | ⟨hv, ht⟩
  · exact mem_firstBefore.2 (Or.inl ht)
  · exact mem_firstBefore.2 (Or.inr ⟨hv, h _ _ ht⟩)

theorem endMarker_mem_followSets (g : Grammar) :
    endMarker ∈ (g.followSets g.firstSets).lookup g.start :=
  g.followSets_closed.1 _ _ (mem_followStart.2 ⟨rfl, rfl⟩)

theorem mem_followSets {rule : Rule} (hr : rule ∈ g.rules) {before rest : List Symbol}
    {symbol : Symbol} (hs : rule.right = before ++ symbol :: rest)
    (hn : g.isNonterminal symbol = true) {t : Symbol}
    (ht : t ∈ g.firstBefore g.firstSets ((g.followSets g.firstSets).lookup rule.left) rest) :
    t ∈ (g.followSets g.firstSets).lookup symbol :=
  g.followSets_closed.2 _
    (mem_followContributions.2 ⟨rule, hr, before, symbol, rest, hs, hn, rfl⟩) t ht

end Grammar
end FrontEnd
