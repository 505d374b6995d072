import FrontEnd.Grammar.Sets

/-! # Sets closed under contributions

FIRST and FOLLOW grow by contributions: a contribution reads the sets so far and adds terminals to
the set of one symbol. A pass carries out a list of them, and each sees what the ones before it
have added.

* `SetMap.Le`: every set of the one map is part of the set of the other.
* `SetMap.Closed`: no contribution would add anything.
* `settle_closed`: repeating a pass until it adds nothing ends in a closed map above the start.
* `Settles`: the passes up to one that adds nothing; `settles_settle`: there are finitely many.
* `holds_settle`: what every contribution keeps true of the elements holds in the end.
-/

namespace FrontEnd
set_option autoImplicit false

namespace SymbolSet

theorem mem_union {a b : SymbolSet} {t : Symbol} : t ∈ a ∪ b ↔ t ∈ a ∨ t ∈ b :=
  Std.TreeSet.mem_union_iff

theorem mem_erase {a : SymbolSet} {s t : Symbol} : t ∈ a.erase s ↔ t ≠ s ∧ t ∈ a := by
  rw [Std.TreeSet.mem_erase, ne_eq, Std.LawfulEqCmp.compare_eq_iff_eq, eq_comm]

theorem mem_singleton {s t : Symbol} : t ∈ ({s} : SymbolSet) ↔ t = s := by
  rw [Std.TreeSet.singleton_eq_insert, Std.TreeSet.mem_insert,
    Std.LawfulEqCmp.compare_eq_iff_eq, eq_comm]
  simp

theorem not_contains_iff {a : SymbolSet} {t : Symbol} : (!a.contains t) = true ↔ t ∉ a := by
  rw [Bool.not_eq_true', ← Bool.not_eq_true, Std.TreeSet.contains_iff_mem]

end SymbolSet

namespace SetMap

theorem mem_lookup_add {sets : SetMap} {symbol s t : Symbol} {more : SymbolSet} :
    t ∈ (sets.add symbol more).lookup s ↔ t ∈ sets.lookup s ∨ s = symbol ∧ t ∈ more := by
  unfold add lookup
  rw [Std.TreeMap.getD_insert]
  by_cases h : symbol = s
  · subst h
    simp only [Std.ReflCmp.compare_self, if_true, true_and]
    exact SymbolSet.mem_union
  · rw [if_neg (by rwa [Std.LawfulEqCmp.compare_eq_iff_eq])]
    simp [Ne.symm h]

theorem not_mem_lookup_empty {symbols : List Symbol} {s t : Symbol} :
    t ∉ (empty symbols).lookup s := by
  have h : ∀ items : List (Symbol × SymbolSet), ∀ sets : SetMap,
      (∀ item ∈ items, t ∉ item.2) → t ∉ sets.lookup s →
      t ∉ lookup (sets.insertMany items) s := by
    intro items
    induction items with
    | nil => intro sets _ hs; exact hs
    | cons item items ih =>
      intro sets hi hs
      rw [Std.TreeMap.insertMany_cons]
      refine ih (sets.insert item.1 item.2) (fun other ho => hi other (by simp [ho])) ?_
      unfold lookup
      rw [Std.TreeMap.getD_insert]
      split
      · exact hi item (by simp)
      · exact hs
  refine h _ ∅ ?_ ?_
  · intro item hi
    obtain ⟨symbol, -, rfl⟩ := List.mem_map.1 hi
    exact Std.TreeSet.not_mem_emptyc
  · unfold lookup
    rw [Std.TreeMap.getD_emptyc]
    exact Std.TreeSet.not_mem_emptyc

/-- Every set of `a` is part of the set of `b` for the same symbol. -/
def Le (a b : SetMap) : Prop := ∀ s t, t ∈ a.lookup s → t ∈ b.lookup s

theorem Le.refl (a : SetMap) : a.Le a := fun _ _ h => h

theorem Le.trans {a b c : SetMap} (h : a.Le b) (h' : b.Le c) : a.Le c :=
  fun s t ht => h' s t (h s t ht)

/-- Nothing but `candidates` stands in the sets, and only those of `symbols` have elements. -/
def Within (symbols candidates : List Symbol) (sets : SetMap) : Prop :=
  ∀ s t, t ∈ sets.lookup s → s ∈ symbols ∧ t ∈ candidates

/-- A map that misses no less than a part of it has nothing that the part lacks. -/
theorem le_of_missing_le {symbols candidates : List Symbol} {a b : SetMap} (h : a.Le b)
    (hb : b.Within symbols candidates)
    (hm : missing symbols candidates a ≤ missing symbols candidates b) : b.Le a := by
  intro s t ht
  by_cases hn : t ∈ a.lookup s
  · exact hn
  exfalso
  obtain ⟨hs, hc⟩ := hb s t ht
  have hle : ∀ symbol ∈ symbols,
      (candidates.countP fun t => !(b.lookup symbol).contains t) ≤
        candidates.countP fun t => !(a.lookup symbol).contains t := by
    intro symbol _
    refine List.countP_mono_left fun t' _ h' => ?_
    rw [SymbolSet.not_contains_iff] at h' ⊢
    exact mt (h symbol t') h'
  have hlt : (candidates.countP fun t => !(b.lookup s).contains t) <
      candidates.countP fun t => !(a.lookup s).contains t := by
    refine countP_lt_countP ?_ hc ?_ ?_
    · intro t' _ h'
      rw [SymbolSet.not_contains_iff] at h' ⊢
      exact mt (h s t') h'
    · simpa using ht
    · exact SymbolSet.not_contains_iff.2 hn
  exact absurd hm (Nat.not_le.2 (total_lt_total hle hs hlt))

end SetMap

/-! ## Passes -/

/-- Reads the sets so far and adds what it finds to the set of `target`. -/
structure Contribution where
  target : Symbol
  found : SetMap → SymbolSet

/-- Larger sets make a contribution find no less. -/
def Contribution.Monotone (c : Contribution) : Prop :=
  ∀ a b : SetMap, a.Le b → ∀ t ∈ c.found a, t ∈ c.found b

namespace SetMap

def contribute (sets : SetMap) (c : Contribution) : SetMap := sets.add c.target (c.found sets)

def pass (contributions : List Contribution) (sets : SetMap) : SetMap :=
  contributions.foldl contribute sets

/-- No contribution finds anything new. -/
def Closed (contributions : List Contribution) (sets : SetMap) : Prop :=
  ∀ c ∈ contributions, ∀ t ∈ c.found sets, t ∈ sets.lookup c.target

theorem le_contribute (sets : SetMap) (c : Contribution) : sets.Le (sets.contribute c) :=
  fun _ _ h => mem_lookup_add.2 (Or.inl h)

theorem contribute_mono {a b : SetMap} {c : Contribution} (hc : c.Monotone) (h : a.Le b) :
    (a.contribute c).Le (b.contribute c) := by
  intro s t ht
  rcases mem_lookup_add.1 ht with ht | ⟨hs, ht⟩
  · exact mem_lookup_add.2 (Or.inl (h s t ht))
  · exact mem_lookup_add.2 (Or.inr ⟨hs, hc a b h t ht⟩)

theorem le_pass (contributions : List Contribution) (sets : SetMap) :
    sets.Le (pass contributions sets) := by
  induction contributions generalizing sets with
  | nil => exact Le.refl sets
  | cons c contributions ih => exact (le_contribute sets c).trans (ih _)

theorem pass_mono {contributions : List Contribution} (hc : ∀ c ∈ contributions, c.Monotone)
    {a b : SetMap} (h : a.Le b) : (pass contributions a).Le (pass contributions b) := by
  induction contributions generalizing a b with
  | nil => exact h
  | cons c contributions ih =>
    exact ih (fun d hd => hc d (by simp [hd])) (contribute_mono (hc c (by simp)) h)

/-- Every element of the set of a symbol is in the relation to it. -/
def Holds (relation : Symbol → Symbol → Prop) (sets : SetMap) : Prop :=
  ∀ s t, t ∈ sets.lookup s → relation s t

theorem holds_empty (relation : Symbol → Symbol → Prop) (symbols : List Symbol) :
    (empty symbols).Holds relation :=
  fun _ _ ht => absurd ht not_mem_lookup_empty

theorem holds_pass {relation : Symbol → Symbol → Prop} {contributions : List Contribution}
    (hc : ∀ c ∈ contributions, ∀ sets : SetMap, sets.Holds relation →
      ∀ t ∈ c.found sets, relation c.target t)
    {sets : SetMap} (h : sets.Holds relation) : (pass contributions sets).Holds relation := by
  induction contributions generalizing sets with
  | nil => exact h
  | cons c contributions ih =>
    refine ih (fun d hd => hc d (by simp [hd])) ?_
    intro s t ht
    rcases mem_lookup_add.1 ht with hs | ⟨rfl, hf⟩
    · exact h s t hs
    · exact hc c (by simp) sets h t hf

theorem within_pass {symbols candidates : List Symbol} {contributions : List Contribution}
    (hc : ∀ c ∈ contributions, c.target ∈ symbols ∧
      ∀ sets : SetMap, sets.Within symbols candidates → ∀ t ∈ c.found sets, t ∈ candidates)
    {sets : SetMap} (h : sets.Within symbols candidates) :
    (pass contributions sets).Within symbols candidates :=
  holds_pass (fun c hm sets hs t ht => ⟨(hc c hm).1, (hc c hm).2 sets hs t ht⟩) h

theorem closed_of_pass_le {contributions : List Contribution}
    (hc : ∀ c ∈ contributions, c.Monotone) {sets : SetMap}
    (h : (pass contributions sets).Le sets) : Closed contributions sets := by
  intro c hm t ht
  obtain ⟨before, after, rfl⟩ := List.append_of_mem hm
  apply h
  have e : pass (before ++ c :: after) sets =
      pass after ((pass before sets).contribute c) := by
    simp only [pass, List.foldl_append, List.foldl_cons]
  rw [e]
  apply le_pass
  have hb := le_pass before sets
  exact mem_lookup_add.2 (Or.inr ⟨rfl, hc c hm sets _ hb t ht⟩)

/-! ## Settling -/

/-- Passes are repeated until one adds nothing, which is the last; `n` others come before it. -/
inductive Settles (step : SetMap → SetMap) : SetMap → Nat → SetMap → Prop
  | last {sets : SetMap} (h : (step sets).Le sets) : Settles step sets 0 (step sets)
  | again {sets result : SetMap} {n : Nat} (h : ¬(step sets).Le sets)
      (hs : Settles step (step sets) n result) : Settles step sets (n + 1) result

theorem missing_le_of_le {symbols candidates : List Symbol} {a b : SetMap} (h : a.Le b) :
    missing symbols candidates b ≤ missing symbols candidates a := by
  refine total_le_total fun symbol _ => List.countP_mono_left fun t _ ht => ?_
  rw [SymbolSet.not_contains_iff] at ht ⊢
  exact mt (h symbol t) ht

theorem missing_le (symbols candidates : List Symbol) (sets : SetMap) :
    missing symbols candidates sets ≤ symbols.length * candidates.length := by
  unfold missing
  induction symbols with
  | nil => simp
  | cons symbol symbols ih =>
    have hle : (candidates.countP fun t => !(sets.lookup symbol).contains t) ≤
        candidates.length := List.countP_le_length
    rw [total_cons, List.length_cons, Nat.succ_mul]
    omega

/-- The loop stops: every pass but the last lowers what is missing. -/
theorem settles_settle {symbols candidates : List Symbol} {contributions : List Contribution}
    (hc : ∀ c ∈ contributions, c.target ∈ symbols ∧
      ∀ sets : SetMap, sets.Within symbols candidates → ∀ t ∈ c.found sets, t ∈ candidates)
    {sets : SetMap} (h : sets.Within symbols candidates) :
    ∃ n ≤ missing symbols candidates sets, Settles (pass contributions) sets n
      (settle (missing symbols candidates) (pass contributions) sets) := by
  fun_induction settle (missing symbols candidates) (pass contributions) sets with
  | case1 sets hlt ih =>
    obtain ⟨n, hn, hs⟩ := ih (within_pass hc h)
    refine ⟨n + 1, by omega, .again (fun hle => ?_) hs⟩
    exact absurd hlt (Nat.not_lt.2 (missing_le_of_le hle))
  | case2 sets hlt =>
    exact ⟨0, Nat.zero_le _, .last (le_of_missing_le (le_pass contributions sets)
      (within_pass hc h) (Nat.not_lt.1 hlt))⟩

theorem holds_settle {relation : Symbol → Symbol → Prop} {contributions : List Contribution}
    (hc : ∀ c ∈ contributions, ∀ sets : SetMap, sets.Holds relation →
      ∀ t ∈ c.found sets, relation c.target t)
    {missing : SetMap → Nat} {sets : SetMap} (h : sets.Holds relation) :
    (settle missing (pass contributions) sets).Holds relation := by
  fun_induction settle missing (pass contributions) sets with
  | case1 sets _ ih => exact ih (holds_pass hc h)
  | case2 sets _ => exact holds_pass hc h

theorem settle_closed {symbols candidates : List Symbol} {contributions : List Contribution}
    (hm : ∀ c ∈ contributions, c.Monotone)
    (hc : ∀ c ∈ contributions, c.target ∈ symbols ∧
      ∀ sets : SetMap, sets.Within symbols candidates → ∀ t ∈ c.found sets, t ∈ candidates)
    {sets : SetMap} (h : sets.Within symbols candidates) :
    sets.Le (settle (missing symbols candidates) (pass contributions) sets) ∧
      Closed contributions (settle (missing symbols candidates) (pass contributions) sets) ∧
      Within symbols candidates
        (settle (missing symbols candidates) (pass contributions) sets) := by
  fun_induction settle (missing symbols candidates) (pass contributions) sets with
  | case1 sets _ ih =>
    obtain ⟨hle, hcl, hw⟩ := ih (within_pass hc h)
    exact ⟨(le_pass contributions sets).trans hle, hcl, hw⟩
  | case2 sets hlt =>
    have hw := within_pass hc h
    have hback : (pass contributions sets).Le sets :=
      le_of_missing_le (le_pass contributions sets) hw (Nat.not_lt.1 hlt)
    exact ⟨le_pass contributions sets, closed_of_pass_le hm (pass_mono hm hback), hw⟩

end SetMap
end FrontEnd
