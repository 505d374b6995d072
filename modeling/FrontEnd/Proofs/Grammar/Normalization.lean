import FrontEnd.Proofs.Grammar.LeftFactoring
import FrontEnd.Proofs.Grammar.LeftRecursion

/-! # The shape of the normal form

Left recursion that is removed leaves `ε` out, so a rule that repeats its left side behind `ε` comes
to repeat it in the open, if its symbol has another rule that is left-recursive. And a symbol whose
rules are all left-recursive has no rules in the end, so another symbol may come first.

* `Rule.isHiddenRecursive`, `HidesRecursion`: left recursion behind `ε`.
* `IsWritten`, `exists_rightRecursive_subset`: which rules are written.
* `Shared.hasStart_factor_iff`: a merge keeps how the rules of a symbol start.
* `endMarker_onRight_of_normalized`: the end marker does not come in by itself.
* `no_leftRecursion_iff`: when the normal form is free of left recursion.
* `start_normalized_iff`: when it has the start symbol of the grammar.
-/

namespace FrontEnd
set_option autoImplicit false

/-! ## Left recursion behind `ε` -/

namespace Rule

/-- The right side starts with `ε`, and behind that with the left side. -/
def isHiddenRecursive (rule : Rule) : Bool :=
  rule.right.head? == some epsilon &&
    (rule.right.filter (· != epsilon)).head? == some rule.left

theorem left_ne_epsilon_of_isHiddenRecursive {rule : Rule} (h : rule.isHiddenRecursive = true) :
    rule.left ≠ epsilon := by
  rw [isHiddenRecursive, Bool.and_eq_true, beq_iff_eq, beq_iff_eq] at h
  simpa using (List.mem_filter.1 (List.mem_of_head? h.2)).2

theorem left_mem_right_of_isHiddenRecursive {rule : Rule} (h : rule.isHiddenRecursive = true) :
    rule.left ∈ rule.right := by
  rw [isHiddenRecursive, Bool.and_eq_true, beq_iff_eq, beq_iff_eq] at h
  exact List.mem_of_mem_filter (List.mem_of_head? h.2)

theorem isLeftRecursive_of_isHiddenRecursive {rule : Rule} (h : rule.isHiddenRecursive = true) :
    rule.isLeftRecursive = false := by
  have hne := left_ne_epsilon_of_isHiddenRecursive h
  rw [isHiddenRecursive, Bool.and_eq_true, beq_iff_eq] at h
  rw [isLeftRecursive, h.1]
  simpa using hne.symm

/-- A rule gets a tail and repeats its left side just if it did so behind `ε`. -/
theorem isLeftRecursive_withTail {rule : Rule} {tail : Symbol} (hr : rule.isLeftRecursive = false)
    (ht : tail ≠ rule.left) :
    (rule.withTail tail).isLeftRecursive = true ↔ rule.isHiddenRecursive = true := by
  obtain ⟨left, right⟩ := rule
  cases right with
  | nil => simpa [withTail, isLeftRecursive, isHiddenRecursive] using ht
  | cons first rest =>
    by_cases hε : first = epsilon
    · subst hε
      have hcases : ((epsilon :: rest).filter (· != epsilon)).head? = some left ↔
          ((epsilon :: rest).filter (· != epsilon) ++ [tail]).head? = some left := by
        rw [List.head?_append]
        cases ((epsilon :: rest).filter (· != epsilon)).head? with
        | none => simpa using ht
        | some symbol => simp
      simp only [withTail, isLeftRecursive, isHiddenRecursive, beq_iff_eq, ← hcases,
        List.head?_cons, Bool.and_eq_true, true_and]
    · have hfirst : first ≠ left := by simpa [isLeftRecursive] using hr
      simp [withTail, isLeftRecursive, isHiddenRecursive, hε, hfirst]

end Rule

/-- A symbol with a left-recursive rule has another one that repeats it behind `ε`. -/
def HidesRecursion (rules : List Rule) : Prop :=
  ∃ rule ∈ rules, rule.isHiddenRecursive = true ∧
    ∃ other ∈ rules, other.left = rule.left ∧ other.isLeftRecursive = true

/-! ## Removing left recursion -/

section
variable {all seen out rest members : List Rule} {rule : Rule} {tail : Symbol}

/-- No tail is left-recursive, so only a hidden left recursion comes to light. -/
theorem exists_isLeftRecursive_rightRecursive_iff (htail : tail ∉ symbolsOf members)
    (hε : tail ≠ epsilon) :
    (∃ rule ∈ rightRecursive members tail, rule.isLeftRecursive = true) ↔
      ∃ member ∈ members, member.isHiddenRecursive = true := by
  have hne : ∀ member ∈ members, tail ≠ member.left := fun member hm he =>
    htail (he ▸ left_mem_symbolsOf hm)
  constructor
  · rintro ⟨rule, hr, hleft⟩
    rcases mem_rightRecursive.1 hr with ⟨member, hm, hd, rfl⟩ | ⟨member, hm, hd, ht⟩ | rfl
    · exact ⟨member, hm, (Rule.isLeftRecursive_withTail hd (hne member hm)).1 hleft⟩
    · -- The right side of a tail starts inside the right side of the member.
      obtain ⟨left, right⟩ := member
      obtain ⟨rests, rfl : right = left :: rests⟩ := Rule.isLeftRecursive_iff.1 hd
      obtain ⟨⟨symbol, hs, -⟩, rfl⟩ := Rule.toTail?_eq_some_iff.1 ht
      obtain ⟨first, rests, rfl⟩ := List.exists_cons_of_ne_nil (List.ne_nil_of_mem hs)
      have hfirst : first = tail := by simpa [Rule.isLeftRecursive] using hleft
      exact absurd (mem_symbolsOf_of_mem_right hm (by simp)) (hfirst ▸ htail)
    · exact absurd (by simpa [Rule.isLeftRecursive] using hleft) hε.symm
  · rintro ⟨member, hm, hh⟩
    have hd := Rule.isLeftRecursive_of_isHiddenRecursive hh
    exact ⟨member.withTail tail, mem_rightRecursive.2 (Or.inl ⟨member, hm, hd, rfl⟩),
      (Rule.isLeftRecursive_withTail hd (hne member hm)).2 hh⟩

/-- What is written stays at the beginning. -/
theorem prefix_removeLeftRecursionFrom (all seen out rest : List Rule) :
    out <+: removeLeftRecursionFrom all seen out rest := by
  induction rest generalizing seen out with
  | nil => exact List.prefix_rfl
  | cons rule rest ih =>
    refine List.IsPrefix.trans ?_ (ih _ _)
    split
    · exact List.prefix_append ..
    · split
      · exact List.prefix_rfl
      · exact List.prefix_append ..

/-- Going through `rest` writes the rules of symbols that need no tail, and for a symbol that needs
one the rules that take the place of its own. -/
inductive IsWritten (all rest : List Rule) (rule : Rule) : Prop
  | copied (hr : rule ∈ rest) (hn : needsTail all rule.left = false) : IsWritten all rest rule
  | replaced {first : Rule} (hf : first ∈ rest) (hn : needsTail all first.left = true)
      (written : List Rule)
      (hr : rule ∈ rightRecursive (all.filter (·.left == first.left))
        (tailName all written first.left)) : IsWritten all rest rule

theorem IsWritten.later (h : IsWritten all rest rule) (first : Rule) :
    IsWritten all (first :: rest) rule := by
  cases h with
  | copied hr hn => exact .copied (List.mem_cons_of_mem first hr) hn
  | replaced hf hn written hr => exact .replaced (List.mem_cons_of_mem first hf) hn written hr

theorem mem_or_isWritten (h : rule ∈ removeLeftRecursionFrom all seen out rest) :
    rule ∈ out ∨ IsWritten all rest rule := by
  induction rest generalizing seen out with
  | nil => exact Or.inl h
  | cons first rest ih =>
    cases hn : needsTail all first.left with
    | false =>
      rw [removeLeftRecursionFrom_copied hn] at h
      rcases ih h with ho | hw
      · rcases List.mem_append.1 ho with ho | ho
        · exact Or.inl ho
        · obtain rfl := List.mem_singleton.1 ho
          exact Or.inr (.copied List.mem_cons_self hn)
      · exact Or.inr (hw.later first)
    | true =>
      by_cases hmet : ∃ met ∈ seen, met.left = first.left
      · rw [removeLeftRecursionFrom_dropped hn hmet] at h
        exact (ih h).imp_right fun hw => hw.later first
      · rw [removeLeftRecursionFrom_replaced hn (by simpa using hmet)] at h
        rcases ih h with ho | hw
        · rcases List.mem_append.1 ho with ho | ho
          · exact Or.inl ho
          · exact Or.inr (.replaced List.mem_cons_self hn out ho)
        · exact Or.inr (hw.later first)

theorem isWritten_of_mem (h : rule ∈ removeLeftRecursion all) : IsWritten all all rule :=
  (mem_or_isWritten h).resolve_left List.not_mem_nil

/-- A symbol that needs a tail gets it when it is met. -/
theorem exists_rightRecursive_subset (hr : rule ∈ rest) (hn : needsTail all rule.left = true)
    (hnew : ∀ met ∈ seen, met.left ≠ rule.left) :
    ∃ written, rightRecursive (all.filter (·.left == rule.left)) (tailName all written rule.left) ⊆
      removeLeftRecursionFrom all seen out rest := by
  induction rest generalizing seen out with
  | nil => simp at hr
  | cons first rest ih =>
    by_cases he : first.left = rule.left
    · rw [← he] at hn hnew ⊢
      rw [removeLeftRecursionFrom_replaced hn hnew]
      exact ⟨out, List.Subset.trans (List.subset_append_right _ _)
        (prefix_removeLeftRecursionFrom ..).subset⟩
    · have hr' : rule ∈ rest := by
        rcases List.mem_cons.1 hr with rfl | hr
        · exact absurd rfl he
        · exact hr
      rw [removeLeftRecursionFrom]
      refine ih hr' fun met hm => ?_
      rcases List.mem_cons.1 hm with rfl | hm
      · exact he
      · exact hnew met hm

theorem exists_isLeftRecursive_removeLeftRecursion_iff :
    (∃ rule ∈ removeLeftRecursion all, rule.isLeftRecursive = true) ↔ HidesRecursion all := by
  have huncovered : ∀ symbol written,
      (∃ rule ∈ rightRecursive (all.filter (·.left == symbol)) (tailName all written symbol),
        rule.isLeftRecursive = true) ↔
          ∃ member ∈ all.filter (·.left == symbol), member.isHiddenRecursive = true := by
    intro symbol written
    have hε : tailName all written symbol ≠ epsilon := tailName_ne _ _ _ rfl (by decide)
    refine exists_isLeftRecursive_rightRecursive_iff (fun h => ?_) hε
    obtain ⟨rule, hr, hs⟩ := mem_symbolsOf.1 h
    exact tailName_not_mem all written symbol
      (mem_symbolsOf.2 ⟨rule, (List.mem_filter.1 hr).1, hs⟩)
  constructor
  · rintro ⟨rule, hr, hleft⟩
    cases isWritten_of_mem hr with
    | copied hr hn => exact absurd (needsTail_iff.2 ⟨rule, hr, rfl, hleft⟩) (by simp [hn])
    | replaced _ hn written hr =>
      obtain ⟨member, hm, hh⟩ := (huncovered _ written).1 ⟨rule, hr, hleft⟩
      obtain ⟨hm, he⟩ := List.mem_filter.1 hm
      rw [beq_iff_eq] at he
      exact ⟨member, hm, hh, he ▸ needsTail_iff.1 hn⟩
  · rintro ⟨member, hm, hh, hother⟩
    obtain ⟨written, hsubset⟩ := exists_rightRecursive_subset hm
      (needsTail_iff.2 hother) (List.forall_mem_nil _)
    obtain ⟨rule, hr, hleft⟩ := (huncovered member.left written).2
      ⟨member, List.mem_filter.2 ⟨hm, beq_self_eq_true _⟩, hh⟩
    exact ⟨rule, hsubset hr, hleft⟩

end

/-! ## Left factoring -/

/-- Some rule of `symbol` has this first symbol, or none if its right side is empty. -/
def HasStart (rules : List Rule) (symbol : Symbol) (first : Option Symbol) : Prop :=
  ∃ rule ∈ rules, rule.left = symbol ∧ rule.right.head? = first

/-- Some rule of `symbol` is not left-recursive. -/
def HasBase (rules : List Rule) (symbol : Symbol) : Prop :=
  ∃ rule ∈ rules, rule.left = symbol ∧ rule.isLeftRecursive = false

theorem exists_isLeftRecursive_iff {rules : List Rule} {symbol : Symbol} :
    (∃ rule ∈ rules, rule.left = symbol ∧ rule.isLeftRecursive = true) ↔
      HasStart rules symbol (some symbol) := by
  refine exists_congr fun rule => and_congr_right fun _ => and_congr_right fun hl => ?_
  rw [Rule.isLeftRecursive, beq_iff_eq, hl]

theorem hidesRecursion_iff {rules : List Rule} :
    HidesRecursion rules ↔ ∃ rule, (rule ∈ rules ∧ rule.isHiddenRecursive = true) ∧
      HasStart rules rule.left (some rule.left) := by
  simp only [HidesRecursion, exists_isLeftRecursive_iff, and_assoc]

theorem hasBase_iff {rules : List Rule} {symbol : Symbol} :
    HasBase rules symbol ↔ ∃ first, first ≠ some symbol ∧ HasStart rules symbol first := by
  constructor
  · rintro ⟨rule, hr, rfl, hb⟩
    exact ⟨rule.right.head?, by simpa [Rule.isLeftRecursive] using hb, rule, hr, rfl, rfl⟩
  · rintro ⟨first, hne, rule, hr, rfl, rfl⟩
    exact ⟨rule, hr, rfl, by simpa [Rule.isLeftRecursive] using hne⟩

namespace Shared
variable {rules : List Rule} {s : Shared} {name : Symbol}

theorem hasStart_factor_iff (hs : firstShared? rules = some s) {symbol : Symbol}
    (hsymbol : symbol ≠ name) {first : Option Symbol} :
    HasStart (s.factor name) symbol first ↔ HasStart rules symbol first := by
  constructor
  · rintro ⟨rule, hr, rfl, rfl⟩
    rcases (mem_factor hs).1 hr with ⟨hr, -⟩ | rfl | ⟨rest, -, rfl⟩
    · exact ⟨rule, hr, rfl, rfl⟩
    · exact ⟨_, mem_of_firstShared? hs, rfl, rfl⟩
    · exact absurd rfl hsymbol
  · rintro ⟨rule, hr, rfl, rfl⟩
    by_cases hstart : rule.startsWith s.left s.head = true
    · obtain ⟨rest, rfl⟩ := Rule.startsWith_iff.1 hstart
      exact ⟨_, (mem_factor hs).2 (Or.inr (Or.inl rfl)), rfl, rfl⟩
    · exact ⟨rule, (mem_factor hs).2 (Or.inl ⟨hr, by simpa using hstart⟩), rfl, rfl⟩

/-- Rules that start with `ε` take no part in a merge. -/
theorem startsWith_of_isHiddenRecursive (hs : firstShared? rules = some s) {rule : Rule}
    (h : rule.isHiddenRecursive = true) : rule.startsWith s.left s.head = false := by
  have hhead := (firstShared?_eq_some hs).2.1
  rw [Rule.isHiddenRecursive, Bool.and_eq_true, beq_iff_eq] at h
  simp [Rule.startsWith, h.1, hhead.symm]

theorem isHiddenRecursive_factor_iff (hs : firstShared? rules = some s)
    (hfresh : name ∉ symbolsOf rules) {rule : Rule} :
    rule ∈ s.factor name ∧ rule.isHiddenRecursive = true ↔
      rule ∈ rules ∧ rule.isHiddenRecursive = true := by
  refine and_congr_left fun h => ?_
  constructor
  · intro hr
    rcases (mem_factor hs).1 hr with ⟨hm, -⟩ | rfl | ⟨rest, hm, rfl⟩
    · exact hm
    · simp [Rule.isHiddenRecursive, (firstShared?_eq_some hs).2.1] at h
    · have hmem := Rule.left_mem_right_of_isHiddenRecursive h
      have hne := Rule.left_ne_epsilon_of_isHiddenRecursive h
      unfold orEpsilon at hmem
      split at hmem
      · exact absurd (List.mem_singleton.1 hmem) hne
      · exact absurd (mem_symbolsOf_of_mem_right hm (List.mem_cons_of_mem _ hmem)) hfresh
  · exact fun hr =>
      (mem_factor hs).2 (Or.inl ⟨hr, startsWith_of_isHiddenRecursive hs h⟩)

theorem hidesRecursion_factor_iff (hs : firstShared? rules = some s)
    (hfresh : name ∉ symbolsOf rules) :
    HidesRecursion (s.factor name) ↔ HidesRecursion rules := by
  simp only [hidesRecursion_iff, isHiddenRecursive_factor_iff hs hfresh]
  exact exists_congr fun rule => and_congr_right fun h =>
    hasStart_factor_iff hs (ne_of_mem_of_not_mem (left_mem_symbolsOf h.1) hfresh)

/-- The first rule keeps its left side. -/
theorem left_head?_factor (hs : firstShared? rules = some s) :
    (s.factor name).head?.map (·.left) = rules.head?.map (·.left) := by
  rw [(firstShared?_eq_some hs).1, factor]
  cases s.before with
  | nil => rfl
  | cons rule before => rfl

end Shared

section
variable {rules : List Rule}

theorem hidesRecursion_leftFactor_iff :
    HidesRecursion (leftFactor rules) ↔ HidesRecursion rules := by
  fun_induction leftFactor rules with
  | case1 => exact Iff.rfl
  | case2 rules s found _ ih =>
    exact ih.trans (Shared.hidesRecursion_factor_iff found (freshName_not_mem _ _))

theorem hasBase_leftFactor_iff {symbol : Symbol} (h : symbol ∈ symbolsOf rules) :
    HasBase (leftFactor rules) symbol ↔ HasBase rules symbol := by
  fun_induction leftFactor rules with
  | case1 => exact Iff.rfl
  | case2 rules s found _ ih =>
    have hne := ne_of_mem_of_not_mem h (freshName_not_mem _ (s.left ++ s.head))
    rw [ih (Shared.symbolsOf_subset_factor found h), hasBase_iff, hasBase_iff]
    simp only [Shared.hasStart_factor_iff found hne]

theorem left_head?_leftFactor :
    (leftFactor rules).head?.map (·.left) = rules.head?.map (·.left) := by
  fun_induction leftFactor rules with
  | case1 => rfl
  | case2 rules s found _ ih => rw [ih, Shared.left_head?_factor found]

/-! ## The first rule -/

theorem Rule.left_of_toTail? {tail : Symbol} {member rule : Rule}
    (h : member.toTail? tail = some rule) : rule.left = tail := by
  rw [toTail?] at h
  split at h
  · exact absurd h (by simp)
  · obtain rfl := Option.some.inj h
    rfl

theorem hasBase_filter_iff {all : List Rule} {symbol : Symbol} :
    HasBase (all.filter (·.left == symbol)) symbol ↔ HasBase all symbol := by
  simp only [HasBase, List.mem_filter, beq_iff_eq, and_assoc, and_self_left]

/-- The rules that take the place of those of one symbol start with its own, if any are left. -/
theorem left_head?_rightRecursive_iff {members : List Rule} {left tail : Symbol}
    (hmembers : ∀ member ∈ members, member.left = left) (htail : tail ≠ left) :
    (rightRecursive members tail).head?.map (·.left) = some left ↔ HasBase members left := by
  rw [rightRecursive, List.append_assoc, List.head?_append]
  cases hbases : members.filter fun rule => !rule.isLeftRecursive with
  | nil =>
    have hnone : ¬HasBase members left := by
      rintro ⟨member, hm, -, hb⟩
      exact List.filter_eq_nil_iff.1 hbases member hm (by simp [hb])
    rw [iff_false_right hnone, List.map_nil, List.head?_nil, Option.none_or]
    intro h
    obtain ⟨rule, hr, hl⟩ := Option.map_eq_some_iff.1 h
    refine htail (Eq.trans ?_ hl)
    rcases List.mem_append.1 (List.mem_of_head? hr) with hr | hr
    · obtain ⟨member, -, hr⟩ := List.mem_filterMap.1 hr
      exact (Rule.left_of_toTail? hr).symm
    · rw [List.mem_singleton.1 hr]
  | cons base bases =>
    obtain ⟨hm, hb⟩ := List.mem_filter.1 (hbases ▸ List.mem_cons_self)
    rw [iff_true_right ⟨base, hm, hmembers base hm, by simpa using hb⟩]
    exact congrArg some (hmembers base hm)

theorem left_head?_removeLeftRecursion_iff (rule : Rule) (rest : List Rule) :
    (removeLeftRecursion (rule :: rest)).head?.map (·.left) = some rule.left ↔
      HasBase (rule :: rest) rule.left := by
  have hhead : ∀ {seen out : List Rule}, out ≠ [] →
      (removeLeftRecursionFrom (rule :: rest) seen out rest).head? = out.head? := fun hne => by
    obtain ⟨more, hmore⟩ := prefix_removeLeftRecursionFrom (rule :: rest) _ _ rest
    rw [← hmore, List.head?_append_of_ne_nil _ hne]
  rw [removeLeftRecursion]
  cases hn : needsTail (rule :: rest) rule.left with
  | false =>
    rw [removeLeftRecursionFrom_copied hn, hhead (by simp)]
    refine iff_of_true rfl ⟨rule, List.mem_cons_self, rfl, ?_⟩
    rw [← Bool.not_eq_true]
    exact fun hr => by simp [needsTail_iff.2 ⟨rule, List.mem_cons_self, rfl, hr⟩] at hn
  | true =>
    rw [removeLeftRecursionFrom_replaced hn (by simp), List.nil_append,
      hhead (by simp [rightRecursive]), ← hasBase_filter_iff]
    refine left_head?_rightRecursive_iff (fun member hm => ?_) ?_
    · simpa using (List.mem_filter.1 hm).2
    · exact (ne_of_mem_of_not_mem (left_mem_symbolsOf List.mem_cons_self)
        (tailName_not_mem (rule :: rest) [] rule.left)).symm

end

namespace Grammar

theorem left_head?_rules (g : Grammar) : g.rules.head?.map (·.left) = some g.start := by
  rw [List.head?_eq_some_head g.nonempty]
  rfl

theorem start_leftFactored (g : Grammar) : g.leftFactored.start = g.start := by
  have h : g.leftFactored.rules.head?.map (·.left) = some g.start :=
    left_head?_leftFactor.trans g.left_head?_rules
  exact Option.some.inj (g.leftFactored.left_head?_rules.symm.trans h)

theorem start_withoutLeftRecursion_iff (g : Grammar) :
    g.withoutLeftRecursion.start = g.start ↔ HasBase g.rules g.start := by
  obtain ⟨rules, hne⟩ := g
  obtain ⟨rule, rest, rfl⟩ := List.exists_cons_of_ne_nil hne
  refine Iff.trans ?_ (left_head?_removeLeftRecursion_iff rule rest)
  have h := (Grammar.withoutLeftRecursion ⟨rule :: rest, hne⟩).left_head?_rules
  exact Option.some_inj.symm.trans (by rw [← h]; rfl)

end Grammar

/-! ## The right sides -/

/-- Some rule has the symbol on its right side. -/
def OnRight (rules : List Rule) (symbol : Symbol) : Prop :=
  ∃ rule ∈ rules, symbol ∈ rule.right

section
variable {rules : List Rule} {symbol : Symbol} {c : Char}

/-- A merge brings nothing new to the right sides but its name and `ε`. -/
theorem Shared.onRight_of_factor {s : Shared} {name : Symbol} (hs : firstShared? rules = some s)
    (hname : symbol ≠ name) (hε : symbol ≠ epsilon) (h : OnRight (s.factor name) symbol) :
    OnRight rules symbol := by
  obtain ⟨rule, hr, hm⟩ := h
  rcases (mem_factor hs).1 hr with ⟨hold, -⟩ | rfl | ⟨rest, hold, rfl⟩
  · exact ⟨rule, hold, hm⟩
  · have hhead : symbol = s.head := by simpa [hname] using hm
    exact ⟨_, mem_of_firstShared? hs, hhead ▸ List.mem_cons_self⟩
  · unfold orEpsilon at hm
    split at hm
    · exact absurd (List.mem_singleton.1 hm) hε
    · exact ⟨_, hold, List.mem_cons_of_mem s.head hm⟩

theorem onRight_of_leftFactor (hsymbol : symbol.toList = [c]) (hc : c ≠ '\x27')
    (hε : symbol ≠ epsilon) (h : OnRight (leftFactor rules) symbol) : OnRight rules symbol := by
  fun_induction leftFactor rules with
  | case1 => exact h
  | case2 rules s found _ ih =>
    exact Shared.onRight_of_factor found (freshName_factor_ne found hsymbol hc).symm hε (ih h)

theorem onRight_of_rightRecursive {tail : Symbol} (htail : symbol ≠ tail) (hε : symbol ≠ epsilon)
    (h : OnRight (rightRecursive rules tail) symbol) : OnRight rules symbol := by
  obtain ⟨rule, hr, hm⟩ := h
  rcases mem_rightRecursive.1 hr with ⟨member, hmember, -, rfl⟩ | ⟨member, hmember, hd, ht⟩ | rfl
  · rcases List.mem_append.1 hm with hm | hm
    · exact ⟨member, hmember, List.mem_of_mem_filter hm⟩
    · exact absurd (List.mem_singleton.1 hm) htail
  · obtain ⟨left, right⟩ := member
    obtain ⟨rest, rfl : right = left :: rest⟩ := Rule.isLeftRecursive_iff.1 hd
    obtain ⟨-, rfl⟩ := Rule.toTail?_eq_some_iff.1 ht
    rcases List.mem_append.1 hm with hm | hm
    · exact ⟨_, hmember, List.mem_cons_of_mem left hm⟩
    · exact absurd (List.mem_singleton.1 hm) htail
  · exact absurd (List.mem_singleton.1 hm) hε

theorem onRight_of_removeLeftRecursion (hsymbol : symbol.toList = [c]) (hc : c ≠ '\x27')
    (hε : symbol ≠ epsilon) (h : OnRight (removeLeftRecursion rules) symbol) :
    OnRight rules symbol := by
  obtain ⟨rule, hr, hm⟩ := h
  cases isWritten_of_mem hr with
  | copied hr => exact ⟨rule, hr, hm⟩
  | replaced _ _ written hr =>
    obtain ⟨member, hmember, hm⟩ := onRight_of_rightRecursive
      (tailName_ne _ _ _ hsymbol hc).symm hε ⟨rule, hr, hm⟩
    exact ⟨member, List.mem_of_mem_filter hmember, hm⟩

/-- The normal form mentions the end marker only if the grammar does. -/
theorem endMarker_onRight_of_normalized {g : Grammar} (h : OnRight g.normalized.rules endMarker) :
    OnRight g.rules endMarker :=
  onRight_of_leftFactor rfl (by decide) (by decide)
    (onRight_of_removeLeftRecursion rfl (by decide) (by decide) h)

end

/-! ## Results -/

/-- Removing left recursion leaves no left-recursive rule behind, except that it uncovers those that
were hidden behind `ε`. For the normal form this depends on the rules as they were written. -/
theorem no_leftRecursion_iff (rules : List Rule) (g : Grammar) :
    ((∀ rule ∈ removeLeftRecursion rules, rule.isLeftRecursive = false) ↔
      ¬HidesRecursion rules) ∧
    ((∀ rule ∈ g.normalized.rules, rule.isLeftRecursive = false) ↔ ¬HidesRecursion g.rules) := by
  have hall : ∀ rules : List Rule,
      (∀ rule ∈ removeLeftRecursion rules, rule.isLeftRecursive = false) ↔
        ¬HidesRecursion rules := by
    intro rules
    rw [← exists_isLeftRecursive_removeLeftRecursion_iff]
    simp
  refine ⟨hall rules, (hall g.leftFactored.rules).trans (not_congr ?_)⟩
  exact hidesRecursion_leftFactor_iff

/-- A rule of `A` that repeats it behind `ε`, beside one that does so in the open. -/
def coveredRules : List Rule := [⟨"A", ["A", "c"]⟩, ⟨"A", [epsilon, "A", "b"]⟩, ⟨"A", ["d"]⟩]

theorem leftRecursion_uncovered :
    (∃ rule ∈ removeLeftRecursion coveredRules, rule.isLeftRecursive = true) ∧
      ∃ rule ∈ (Grammar.mk coveredRules (by decide)).normalized.rules,
        rule.isLeftRecursive = true :=
  ⟨⟨⟨"A", ["A", "b", "A'"]⟩, by decide +kernel, by decide⟩,
    ⟨⟨"A", ["A", "b", "A'"]⟩, by decide +kernel, by decide⟩⟩

/-- Left factoring keeps the start symbol. The other steps do so just if one of its rules is not
left-recursive. -/
theorem start_normalized_iff (g : Grammar) :
    g.leftFactored.start = g.start ∧
      (g.withoutLeftRecursion.start = g.start ↔ HasBase g.rules g.start) ∧
      (g.normalized.start = g.start ↔ HasBase g.rules g.start) := by
  refine ⟨g.start_leftFactored, g.start_withoutLeftRecursion_iff, ?_⟩
  have h := g.leftFactored.start_withoutLeftRecursion_iff
  rw [g.start_leftFactored] at h
  refine h.trans (hasBase_leftFactor_iff ?_)
  exact left_mem_symbolsOf (List.head_mem g.nonempty)

/-- Nothing ends the recursion of `S`. -/
def Grammar.endless : Grammar where
  rules := [⟨"S", ["S", "a"]⟩]
  nonempty := by simp

theorem start_lost : Grammar.endless.normalized.start = "S'" ∧ Grammar.endless.start = "S" := by
  decide +kernel

end FrontEnd
