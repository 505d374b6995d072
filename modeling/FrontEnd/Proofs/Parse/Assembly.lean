import FrontEnd.Proofs.Listing
import FrontEnd.Proofs.Parse.Arena
import FrontEnd.Proofs.Parse.Preorder
import Mathlib.Data.List.ReduceOption

/-! # Assembling a tree

The arena of a parse holds one tree. The trees of its slots are made from the last slot to the
first, each of the trees of its children, which are taken out; at the end only the root's is left.

* `Arena.Unfolds`: the tree below a slot, by recursion on the children.
* `Arena.takeAll_perm`: no tree is lost when some are taken out.
* `Arena.Built`: what is made when all slots from some place on are done; `Built.build`.
* `Arena.Linked.toTree_spec`: the assembled tree is the one that the root unfolds to.
-/

namespace FrontEnd
set_option autoImplicit false

/-! ## Places that are emptied and filled -/

section
variable {α : Type}

/-- What is taken out of a place is missing there afterwards. -/
theorem reduceOption_set_none (places : List (Option α)) (index : Nat) :
    (places[index]?.join.toList ++ (places.set index none).reduceOption).Perm
      places.reduceOption := by
  induction places generalizing index with
  | nil => simp
  | cons place places ih =>
    cases index with
    | zero => cases place <;> simp
    | succ index =>
      cases place with
      | none => simpa using ih index
      | some a =>
        simp only [List.getElem?_cons_succ, List.set_cons_succ, List.reduceOption_cons_of_some]
        exact List.perm_middle.trans ((ih index).cons a)

theorem reduceOption_set_some {places : List (Option α)} {index : Nat}
    (h : places[index]? = some none) (a : α) :
    ((places.set index (some a)).reduceOption).Perm (a :: places.reduceOption) := by
  obtain ⟨hlt, hplace⟩ := List.getElem?_eq_some_iff.1 h
  have hempty : places.set index none = places := by
    rw [← hplace]
    exact List.set_getElem_self hlt
  have hset := reduceOption_set_none (places.set index (some a)) index
  rw [List.getElem?_set_self hlt, List.set_set, hempty] at hset
  exact hset.symm

/-- Only the first place is filled. -/
theorem reduceOption_eq_singleton {places : List (Option α)} {a : α}
    (hfirst : places[0]? = some (some a))
    (hrest : ∀ index, 0 < index → index < places.length → places[index]? = some none) :
    places.reduceOption = [a] := by
  cases places with
  | nil => exact absurd hfirst (by simp)
  | cons place places =>
    obtain rfl : place = some a := Option.some.inj hfirst
    have hnone : places = List.replicate places.length none :=
      List.eq_replicate_iff.2 ⟨rfl, fun place hp => by
        obtain ⟨index, hlt, rfl⟩ := List.getElem_of_mem hp
        have h := hrest (index + 1) (Nat.succ_pos _) (Nat.succ_lt_succ hlt)
        rw [List.getElem?_cons_succ, List.getElem?_eq_getElem hlt] at h
        exact Option.some.inj h⟩
    rw [List.reduceOption_cons_of_some, hnone, List.reduceOption_replicate_none]

end

/-! ## Nodes -/

theorem Tree.length_labels (tree : Tree) : tree.labels.length = tree.count := by
  rw [← tree.length_renderAt 0, renderAt_eq_map, List.length_map, ← tree.map_outlineAt 0,
    List.length_map]

theorem forestLabels_perm {trees others : List Tree} (h : trees.Perm others) :
    (Tree.forestLabels trees).Perm (Tree.forestLabels others) := by
  induction h with
  | nil => exact .refl _
  | cons tree _ ih => exact ih.append_left _
  | swap tree other trees =>
    simp only [Tree.forestLabels]
    rw [← List.append_assoc, ← List.append_assoc]
    exact List.perm_append_comm.append_right _
  | trans _ _ ih ih' => exact ih.trans ih'

/-- What the node of a slot carries. -/
def Slot.label (slot : Slot) : Terminal := ⟨slot.symbol, slot.value, slot.line⟩

namespace Arena

/-! ## Unfolding -/

mutual

/-- The tree that a slot stands for: what the slot carries, above the trees of its children. -/
inductive Unfolds (arena : Arena) : Nat → Tree → Prop
  | node {index : Nat} {slot : Slot} {trees : List Tree} (hs : arena.slot? index = some slot)
      (ht : UnfoldsAll arena slot.children trees) :
      Unfolds arena index ⟨slot.symbol, slot.line, slot.value, trees⟩

inductive UnfoldsAll (arena : Arena) : List Nat → List Tree → Prop
  | nil : UnfoldsAll arena [] []
  | cons {index : Nat} {tree : Tree} {indices : List Nat} {trees : List Tree}
      (h : Unfolds arena index tree) (hr : UnfoldsAll arena indices trees) :
      UnfoldsAll arena (index :: indices) (tree :: trees)

end

mutual

theorem Unfolds.unique {arena : Arena} {index : Nat} {tree other : Tree}
    (h : arena.Unfolds index tree) (h' : arena.Unfolds index other) : tree = other := by
  obtain ⟨hs, ht⟩ := h
  obtain ⟨hs', ht'⟩ := h'
  obtain rfl := Option.some.inj (hs.symm.trans hs')
  rw [UnfoldsAll.unique ht ht']

theorem UnfoldsAll.unique {arena : Arena} {indices : List Nat} {trees others : List Tree}
    (h : arena.UnfoldsAll indices trees) (h' : arena.UnfoldsAll indices others) :
    trees = others := by
  cases h with
  | nil =>
    cases h'
    rfl
  | cons h hr =>
    cases h' with
    | cons h' hr' => rw [Unfolds.unique h h', UnfoldsAll.unique hr hr']

end

/-! ## Taking trees out -/

theorem takeAll_perm (built : Array (Option Tree)) (indices : List Nat) :
    ((takeAll built indices).1 ++ (takeAll built indices).2.toList.reduceOption).Perm
      built.toList.reduceOption := by
  induction indices generalizing built with
  | nil => exact .refl _
  | cons index indices ih =>
    rw [takeAll, List.append_assoc]
    refine ((ih _).append_left _).trans ?_
    rw [Array.toList_setIfInBounds, ← Array.getElem?_toList]
    exact reduceOption_set_none built.toList index

@[simp] theorem size_takeAll (built : Array (Option Tree)) (indices : List Nat) :
    (takeAll built indices).2.size = built.size := by
  induction indices generalizing built with
  | nil => rfl
  | cons index indices ih => rw [takeAll, ih, Array.size_setIfInBounds]

theorem getElem?_takeAll (built : Array (Option Tree)) (indices : List Nat) (place : Nat) :
    (takeAll built indices).2[place]? =
      if place ∈ indices then built[place]?.map fun _ => none else built[place]? := by
  induction indices generalizing built with
  | nil => rfl
  | cons index indices ih =>
    rw [takeAll, ih, Array.getElem?_setIfInBounds]
    by_cases hindex : index = place
    · subst hindex
      by_cases hlt : index < built.size
      · simp [hlt]
      · simp [hlt]
    · have hother : place ≠ index := fun h => hindex h.symm
      simp [hindex, hother]

section
variable {arena : Arena}

theorem unfoldsAll_takeAll {built : Array (Option Tree)} {indices : List Nat}
    (hd : indices.Nodup)
    (h : ∀ index ∈ indices, ∃ tree, built[index]? = some (some tree) ∧ arena.Unfolds index tree) :
    arena.UnfoldsAll indices (takeAll built indices).1 := by
  induction indices generalizing built with
  | nil => exact .nil
  | cons index indices ih =>
    obtain ⟨hnot, hd⟩ := List.nodup_cons.1 hd
    obtain ⟨tree, hplace, htree⟩ := h index (by simp)
    rw [takeAll, hplace]
    refine .cons htree (ih hd fun other hother => ?_)
    have hne : index ≠ other := fun he => hnot (he ▸ hother)
    rw [Array.getElem?_setIfInBounds_ne hne]
    exact h other (List.mem_cons_of_mem index hother)

/-! ## Making trees -/

/-- What is there when the slots from `first` on are done: the trees of those whose parent is not,
and these hold all nodes. -/
structure Built (arena : Arena) (first : Nat) (built : Array (Option Tree)) : Prop where
  size_eq : built.size = arena.size
  exists_tree : ∀ index, first ≤ index → index < arena.size →
    (∀ parent, arena.parent? index = some parent → parent < first) →
    ∃ tree, built[index]? = some (some tree) ∧ arena.Unfolds index tree
  empty : ∀ index < arena.size,
    (index < first ∨ ∃ parent, arena.parent? index = some parent ∧ first ≤ parent) →
    built[index]? = some none
  labels : (Tree.forestLabels built.toList.reduceOption).Perm
    ((arena.slots.toList.drop first).map Slot.label)

namespace Built

theorem start (arena : Arena) : arena.Built arena.size (Array.replicate arena.size none) where
  size_eq := Array.size_replicate
  exists_tree index hle hlt := absurd hle (Nat.not_le.2 hlt)
  empty index hlt _ := by rw [Array.getElem?_replicate, if_pos hlt]
  labels := by
    rw [Array.toList_replicate, List.reduceOption_replicate_none, size, ← Array.length_toList,
      List.drop_length]
    exact .refl _

section
variable {index : Nat} {built : Array (Option Tree)} {slot : Slot} (h : arena.Built (index + 1) built)
  (hlinked : arena.Linked) (hs : arena.slot? index = some slot)
include h hlinked hs

theorem getElem?_takeAll (other : Nat) (hother : other < arena.size) :
    (takeAll built slot.children).2[other]? =
      if arena.parent? other = some index then some none else built[other]? := by
  have hplace : (built[other]?.map fun _ => (none : Option Tree)) = some none := by
    rw [Array.getElem?_eq_getElem (h.size_eq ▸ hother), Option.map_some]
  rw [Arena.getElem?_takeAll, hplace]
  simp only [hlinked.mem_children_iff hs]

theorem unfoldsAll : arena.UnfoldsAll slot.children (takeAll built slot.children).1 := by
  refine unfoldsAll_takeAll (hlinked.nodup_children hs) fun child hc => ?_
  have hp := (hlinked.mem_children_iff hs).1 hc
  refine h.exists_tree child (lt_of_parent? hp) (lt_size_of_parent? hp) fun parent hparent => ?_
  obtain rfl := Option.some.inj (hp.symm.trans hparent)
  exact Nat.lt_succ_self _

/-- The slot before the first one that is done is done next. -/
theorem build : arena.Built index (arena.build index built) := by
  have hindex := lt_size_of_slot? hs
  have htaken := h.getElem?_takeAll hlinked hs
  have hnot : arena.parent? index ≠ some index := fun hp => Nat.lt_irrefl _ (lt_of_parent? hp)
  have hunfolds := h.unfoldsAll hlinked hs
  unfold Arena.build
  rw [hs]
  dsimp only
  generalize htree : (⟨slot.symbol, slot.line, slot.value, (takeAll built slot.children).1⟩ : Tree) =
    tree
  have hother {other : Nat} (hlt : other < arena.size) (hne : index ≠ other) :
      ((takeAll built slot.children).2.setIfInBounds index (some tree))[other]? =
        if arena.parent? other = some index then some none else built[other]? := by
    rw [Array.getElem?_setIfInBounds_ne hne, htaken other hlt]
  refine ⟨?_, ?_, ?_, ?_⟩
  · rw [Array.size_setIfInBounds, size_takeAll, h.size_eq]
  · intro other hle hlt hparent
    rcases Nat.eq_or_lt_of_le hle with rfl | hgt
    · refine ⟨tree, ?_, htree ▸ .node hs hunfolds⟩
      rw [Array.getElem?_setIfInBounds_self_of_lt]
      rw [size_takeAll, h.size_eq]
      exact hlt
    · rw [hother hlt (Nat.ne_of_lt hgt), if_neg fun hp => Nat.lt_irrefl _ (hparent _ hp)]
      exact h.exists_tree other hgt hlt fun parent hp => Nat.lt_succ_of_lt (hparent parent hp)
  · rintro other hlt hundone
    have hne : index ≠ other := by
      rintro rfl
      rcases hundone with hlt | ⟨parent, hp, hle⟩
      · exact Nat.lt_irrefl _ hlt
      · exact Nat.lt_irrefl _ (Nat.lt_of_le_of_lt hle (lt_of_parent? hp))
    rw [hother hlt hne]
    split
    · rfl
    · rename_i hnot
      refine h.empty other hlt ?_
      rcases hundone with hlt | ⟨parent, hp, hle⟩
      · exact Or.inl (Nat.lt_succ_of_lt hlt)
      · rcases Nat.eq_or_lt_of_le hle with rfl | hgt
        · exact absurd hp hnot
        · exact Or.inr ⟨parent, hp, hgt⟩
  · have hempty : (takeAll built slot.children).2.toList[index]? = some none := by
      rw [Array.getElem?_toList, htaken index hindex, if_neg hnot]
      exact h.empty index hindex (Or.inl (Nat.lt_succ_self _))
    have hdrop : arena.slots.toList.drop index = slot :: arena.slots.toList.drop (index + 1) := by
      obtain ⟨hlt, rfl⟩ := Array.getElem?_eq_some_iff.1 hs
      exact List.drop_eq_getElem_cons (by simpa using hlt)
    rw [Array.toList_setIfInBounds, hdrop, List.map_cons]
    refine (forestLabels_perm (reduceOption_set_some hempty tree)).trans ?_
    rw [Tree.forestLabels, ← htree, Tree.labels, List.cons_append, ← Tree.forestLabels_append]
    exact ((forestLabels_perm (takeAll_perm built slot.children)).trans h.labels).cons _

end

theorem buildFrom (hlinked : arena.Linked) {count : Nat} (hle : count ≤ arena.size)
    {built : Array (Option Tree)} (h : arena.Built count built) :
    arena.Built 0 (arena.buildFrom count built) := by
  induction count generalizing built with
  | zero => exact h
  | succ index ih =>
    obtain ⟨slot, hs⟩ := exists_slot? (Nat.lt_of_succ_le hle)
    exact ih (Nat.le_of_succ_le hle) (h.build hlinked hs)

/-- When all is done only the root's tree is left. -/
theorem exists_root (hlinked : arena.Linked) {built : Array (Option Tree)} (h : arena.Built 0 built) :
    ∃ tree, built[0]? = some (some tree) ∧ arena.Unfolds 0 tree ∧
      built.toList.reduceOption = [tree] := by
  obtain ⟨tree, hplace, htree⟩ := h.exists_tree 0 (Nat.le_refl _) hlinked.nonempty fun parent hp =>
    absurd (lt_of_parent? hp) (Nat.not_lt_zero _)
  refine ⟨tree, hplace, htree, reduceOption_eq_singleton ?_ fun index hpos hlt => ?_⟩
  · rwa [Array.getElem?_toList]
  · rw [Array.length_toList, h.size_eq] at hlt
    obtain ⟨parent, hp⟩ := hlinked.exists_parent hlt (Nat.ne_of_gt hpos)
    rw [Array.getElem?_toList]
    exact h.empty index hlt (Or.inr ⟨parent, hp, Nat.zero_le _⟩)

end Built

/-- The tree is what the root unfolds to, and it has the nodes of all slots. -/
theorem Linked.toTree_spec (h : arena.Linked) :
    arena.Unfolds 0 arena.toTree ∧
      arena.toTree.labels.Perm (arena.slots.toList.map Slot.label) := by
  have hbuilt := (Built.start arena).buildFrom h (Nat.le_refl _)
  obtain ⟨tree, hplace, htree, honly⟩ := hbuilt.exists_root h
  have heq : arena.toTree = tree := by
    unfold toTree
    dsimp only
    rw [hplace]
    rfl
  have hlabels := hbuilt.labels
  rw [honly, Tree.forestLabels_singleton] at hlabels
  exact heq ▸ ⟨htree, hlabels⟩

end
end Arena

end FrontEnd
