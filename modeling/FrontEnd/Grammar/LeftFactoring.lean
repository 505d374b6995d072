import FrontEnd.Grammar.Sharing

/-! # Left factoring

Rules that share their start are merged, with a fresh name each time, until no two do.

* `leftFactor`: all merges.
* `sharedLength`: the length of the right sides that still share their start. A merge lowers it
  (`sharedLength_factor_lt`), so the merging ends.
-/

namespace FrontEnd
set_option autoImplicit false

/-! ## A merge lowers the shared length -/

/-- Whether some other rule shares the start of `rule`. -/
def Rule.isShared (rules : List Rule) (rule : Rule) : Bool :=
  match rule.right with
  | [] => false
  | head :: _ => head != epsilon && decide (2 ≤ rules.countP (Rule.startsWith rule.left head))

def sharedWeight (rules : List Rule) (rule : Rule) : Nat :=
  if rule.isShared rules then rule.right.length else 0

def sharedLength (rules : List Rule) : Nat :=
  total (sharedWeight rules) rules

/-- What `firstShared?` finds is a splitting of the rules. -/
theorem firstShared?_eq_some {rules : List Rule} {s : Shared} (h : firstShared? rules = some s) :
    rules = s.before ++ ⟨s.left, s.head :: s.rest⟩ :: s.after ∧ s.head ≠ epsilon ∧
      s.after.any (Rule.startsWith s.left s.head) = true ∧
      ∀ rule ∈ s.before, rule.startsWith s.left s.head = false := by
  fun_induction firstShared? rules generalizing s with
  | case1 => simp at h
  | case2 left rules ih =>
    obtain ⟨t, ht, rfl⟩ := Option.map_eq_some_iff.1 h
    obtain ⟨hr, hh, ha, hb⟩ := ih ht
    refine ⟨by rw [hr]; rfl, hh, ha, ?_⟩
    intro rule hm
    rcases List.mem_cons.1 hm with rfl | hm
    · simp [Rule.startsWith]
    · exact hb rule hm
  | case3 left head rest rules hc =>
    obtain rfl := Option.some.inj h
    simp only [Bool.and_eq_true, bne_iff_ne] at hc
    exact ⟨rfl, hc.1, hc.2, by simp⟩
  | case4 left head rest rules hc ih =>
    obtain ⟨t, ht, rfl⟩ := Option.map_eq_some_iff.1 h
    obtain ⟨hr, hh, ha, hb⟩ := ih ht
    refine ⟨by rw [hr]; rfl, hh, ha, ?_⟩
    intro rule hm
    rcases List.mem_cons.1 hm with rfl | hm
    · apply Bool.eq_false_iff.2
      intro hs
      simp only [Rule.startsWith, List.head?_cons, Bool.and_eq_true, beq_iff_eq,
        Option.some.injEq] at hs
      apply hc
      simp only [Bool.and_eq_true, bne_iff_ne]
      refine ⟨hs.2 ▸ hh, ?_⟩
      rw [hr, hs.1, hs.2, List.any_append, List.any_cons]
      simp [Rule.startsWith]
    · exact hb rule hm

theorem countP_startsWith_map (left head name : Symbol) (h : name ≠ left)
    (rests : List (List Symbol)) :
    (rests.map fun rest => Rule.mk name rest).countP (Rule.startsWith left head) = 0 := by
  simp [Rule.startsWith, List.countP_eq_zero, h]

theorem countP_startsWith_filter_le (s : Shared) (left head : Symbol) (rules : List Rule) :
    (rules.filter fun rule => !rule.startsWith s.left s.head).countP (Rule.startsWith left head) ≤
      rules.countP (Rule.startsWith left head) :=
  List.filter_sublist.countP_le

/-- A merge makes no rule of other starts shared. -/
theorem sharedWeight_factor_le {rules : List Rule} {s : Shared} {name : Symbol} {rule : Rule}
    (hs : rules = s.before ++ ⟨s.left, s.head :: s.rest⟩ :: s.after)
    (hn : rule.left ≠ name) (hr : rule.startsWith s.left s.head = false) :
    sharedWeight (s.factor name) rule ≤ sharedWeight rules rule := by
  match rule, hn, hr with
  | ⟨left, []⟩, _, _ => simp [sharedWeight, Rule.isShared]
  | ⟨left, head :: rest⟩, hn, hr =>
    have hne : Rule.startsWith left head ⟨s.left, [s.head, name]⟩ = false := by
      simp only [Rule.startsWith, List.head?_cons, Bool.and_eq_false_iff, beq_eq_false_iff_ne,
        ne_eq, Option.some.injEq] at hr ⊢
      exact hr.imp (fun h e => h e.symm) (fun h e => h e.symm)
    have hne' : Rule.startsWith left head ⟨s.left, s.head :: s.rest⟩ = false := hne
    have hle : (s.factor name).countP (Rule.startsWith left head) ≤
        rules.countP (Rule.startsWith left head) := by
      rw [hs, Shared.factor]
      simp only [List.append_assoc, List.cons_append, List.countP_append, List.countP_cons, hne,
        hne', countP_startsWith_map left head name (Ne.symm hn)]
      have := countP_startsWith_filter_le s left head s.after
      simp only [Bool.false_eq_true, if_false]
      omega
    unfold sharedWeight
    split
    · rename_i h
      simp only [Rule.isShared, Bool.and_eq_true, decide_eq_true_eq] at h
      have shared : Rule.isShared rules ⟨left, head :: rest⟩ = true := by
        simpa [Rule.isShared, h.1] using Nat.le_trans h.2 hle
      exact Nat.le_of_eq (if_pos shared).symm
    · exact Nat.zero_le _

/-- The merged rule is the only one with its start. -/
theorem sharedWeight_merged {s : Shared} {name : Symbol} (hn : name ≠ s.left)
    (hb : ∀ rule ∈ s.before, rule.startsWith s.left s.head = false) :
    sharedWeight (s.factor name) ⟨s.left, [s.head, name]⟩ = 0 := by
  have h0 : s.before.countP (Rule.startsWith s.left s.head) = 0 :=
    List.countP_eq_zero.2 fun rule h => by simp [hb rule h]
  have h1 : (s.after.filter fun rule => !rule.startsWith s.left s.head).countP
      (Rule.startsWith s.left s.head) = 0 :=
    List.countP_eq_zero.2 fun rule h => by simpa using (List.mem_filter.1 h).2
  have : (s.factor name).countP (Rule.startsWith s.left s.head) ≤ 1 := by
    rw [Shared.factor]
    simp only [List.append_assoc, List.cons_append, List.countP_append, List.countP_cons, h0, h1,
      countP_startsWith_map s.left s.head name hn]
    split <;> omega
  unfold sharedWeight
  rw [if_neg]
  simp only [Rule.isShared, Bool.and_eq_true, decide_eq_true_eq]
  omega

/-- The new rules weigh no more than the rests that they were made from. -/
theorem sharedWeight_orEpsilon_le (rules : List Rule) (name : Symbol) (rest : List Symbol) :
    sharedWeight rules ⟨name, orEpsilon rest⟩ ≤ rest.length := by
  match rest with
  | [] => simp [orEpsilon, sharedWeight, Rule.isShared]
  | a :: rest =>
    simp only [sharedWeight, orEpsilon, List.isEmpty_cons, Bool.false_eq_true, if_false]
    split <;> simp

theorem total_rests (s : Shared) :
    total List.length s.rests + (s.after.filter (Rule.startsWith s.left s.head)).length =
      s.rest.length + total (·.right.length) (s.after.filter (Rule.startsWith s.left s.head)) := by
  have h : ∀ rules : List Rule, (∀ rule ∈ rules, rule.startsWith s.left s.head = true) →
      total (·.right.tail.length) rules + rules.length = total (·.right.length) rules := by
    intro rules
    induction rules with
    | nil => simp
    | cons rule rules ih =>
      intro hm
      have h1 := ih fun r hr => hm r (by simp [hr])
      have h2 := hm rule (by simp)
      have : rule.right.tail.length + 1 = rule.right.length := by
        match rule, h2 with
        | ⟨_, []⟩, h2 => simp [Rule.startsWith] at h2
        | ⟨_, _ :: _⟩, _ => simp
      simp only [total_cons, List.length_cons]
      omega
  have := h (s.after.filter (Rule.startsWith s.left s.head)) fun rule hr => (List.mem_filter.1 hr).2
  simp only [Shared.rests, total_cons, total_map] at this ⊢
  omega

/-- The members of the group that is merged were all shared. -/
theorem sharedWeight_member {rules : List Rule} {s : Shared} {rule : Rule}
    (hs : rules = s.before ++ ⟨s.left, s.head :: s.rest⟩ :: s.after) (hh : s.head ≠ epsilon)
    (ha : s.after.any (Rule.startsWith s.left s.head) = true)
    (hr : rule.startsWith s.left s.head = true) :
    sharedWeight rules rule = rule.right.length := by
  have h2 : 2 ≤ rules.countP (Rule.startsWith s.left s.head) := by
    have : 0 < s.after.countP (Rule.startsWith s.left s.head) :=
      List.countP_pos_iff.2 (List.any_eq_true.1 ha)
    rw [hs, List.countP_append, List.countP_cons, if_pos (by simp [Rule.startsWith])]
    omega
  match rule, hr with
  | ⟨left, []⟩, _ => simp [sharedWeight, Rule.isShared]
  | ⟨left, head :: rest⟩, hr =>
    simp only [Rule.startsWith, List.head?_cons, Bool.and_eq_true, beq_iff_eq,
      Option.some.injEq] at hr
    rw [sharedWeight, if_pos]
    simpa [Rule.isShared, hr.1, hr.2, hh] using h2

theorem sharedLength_factor (s : Shared) (name : Symbol) :
    sharedLength (s.factor name) =
      total (sharedWeight (s.factor name)) s.before +
        (sharedWeight (s.factor name) ⟨s.left, [s.head, name]⟩ +
        (total (fun rest => sharedWeight (s.factor name) ⟨name, rest⟩)
          (s.rests.map orEpsilon).eraseDups +
        total (sharedWeight (s.factor name))
          (s.after.filter fun rule => !rule.startsWith s.left s.head))) := by
  generalize hw : sharedWeight (s.factor name) = weight
  rw [sharedLength, hw, Shared.factor]
  simp only [List.append_assoc, List.cons_append, total_append, total_cons, total_map]

theorem sharedLength_split {rules : List Rule} {s : Shared}
    (hs : rules = s.before ++ ⟨s.left, s.head :: s.rest⟩ :: s.after) :
    sharedLength rules =
      total (sharedWeight rules) s.before +
        (sharedWeight rules ⟨s.left, s.head :: s.rest⟩ +
        total (sharedWeight rules) s.after) := by
  generalize hw : sharedWeight rules = weight
  rw [sharedLength, hw, hs]
  simp only [total_append, total_cons]

theorem sharedLength_factor_lt {rules : List Rule} {s : Shared} {name : Symbol}
    (h : firstShared? rules = some s) (hn : name ∉ symbolsOf rules) :
    sharedLength (s.factor name) < sharedLength rules := by
  obtain ⟨hs, hh, ha, hb⟩ := firstShared?_eq_some h
  have hleft : ∀ rule ∈ rules, rule.left ≠ name := fun rule hm he =>
    hn (List.mem_flatMap.2 ⟨rule, hm, by simp [Rule.symbols, he]⟩)
  have hbefore : total (sharedWeight (s.factor name)) s.before ≤
      total (sharedWeight rules) s.before :=
    total_le_total fun rule hm =>
      sharedWeight_factor_le hs (hleft rule (by rw [hs]; simp [hm])) (hb rule hm)
  have hother : total (sharedWeight (s.factor name))
        (s.after.filter fun rule => !rule.startsWith s.left s.head) ≤
      total (sharedWeight rules) (s.after.filter fun rule => !rule.startsWith s.left s.head) :=
    total_le_total fun rule hm => by
      obtain ⟨hm, hr⟩ := List.mem_filter.1 hm
      exact sharedWeight_factor_le hs (hleft rule (by rw [hs]; simp [hm])) (by simpa using hr)
  have hmerged : sharedWeight (s.factor name) ⟨s.left, [s.head, name]⟩ = 0 :=
    sharedWeight_merged (fun he => hleft ⟨s.left, s.head :: s.rest⟩ (by rw [hs]; simp) he.symm) hb
  have hnew : total (fun rest => sharedWeight (s.factor name) ⟨name, rest⟩)
      (s.rests.map orEpsilon).eraseDups ≤ total List.length s.rests := by
    refine Nat.le_trans (total_eraseDups_le _ _) ?_
    rw [total_map]
    exact total_le_total fun rest _ => sharedWeight_orEpsilon_le _ _ _
  have hgroup : total (sharedWeight rules) (s.after.filter (Rule.startsWith s.left s.head)) =
      total (·.right.length) (s.after.filter (Rule.startsWith s.left s.head)) :=
    total_congr fun rule hm => sharedWeight_member hs hh ha (List.mem_filter.1 hm).2
  have hfirst : sharedWeight rules ⟨s.left, s.head :: s.rest⟩ = s.rest.length + 1 :=
    sharedWeight_member hs hh ha (by simp [Rule.startsWith])
  have hrests := total_rests s
  have hsplit := total_filter_add (sharedWeight rules) (Rule.startsWith s.left s.head) s.after
  rw [sharedLength_factor, sharedLength_split hs]
  omega

/-! ## All merges -/

def leftFactor (rules : List Rule) : List Rule :=
  match found : firstShared? rules with
  | none => rules
  | some s =>
    have := sharedLength_factor_lt found (freshName_not_mem _ (s.left ++ s.head))
    leftFactor (s.factor (freshName (symbolsOf rules) (s.left ++ s.head)))
termination_by sharedLength rules

end FrontEnd
