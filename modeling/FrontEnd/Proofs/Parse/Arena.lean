import FrontEnd.Parse.Stack
import Mathlib.Data.List.Nodup
import Mathlib.Logic.Relation

/-! # The arena of a parse

* `Arena.Linked`: a slot lists those that name it as their parent, each once, and only the root has
  no parent.
* `Arena.Ordered`: parents were opened, none after its children, and none ahead of the input.
* `StackState.linked_step?`, `StackState.ordered_step?`: a step keeps both.
* `reopens_iff_ancestor`: the walk upwards misses no ancestor.
-/

namespace FrontEnd
set_option autoImplicit false

namespace Arena

def parent? (arena : Arena) (index : Nat) : Option Nat :=
  (arena.slot? index).bind (·.parent)

def openedAt? (arena : Arena) (index : Nat) : Option Nat :=
  (arena.slot? index).bind (·.openedAt)

def IsChild (arena : Arena) (index parent : Nat) : Prop := arena.parent? index = some parent

/-- A node is met on the way up from another one. -/
def IsAncestor (arena : Arena) (ancestor node : Nat) : Prop :=
  Relation.TransGen arena.IsChild node ancestor

/-- A node is another one or below it. -/
def IsWithin (arena : Arena) (node top : Nat) : Prop :=
  Relation.ReflTransGen arena.IsChild node top

section
variable {arena : Arena} {index parent : Nat}

theorem parent?_eq_some_iff :
    arena.parent? index = some parent ↔
      ∃ slot, arena.slot? index = some slot ∧ slot.parent = some parent :=
  Option.bind_eq_some_iff

theorem lt_of_parent? (h : arena.parent? index = some parent) : parent < index := by
  obtain ⟨slot, hs, hp⟩ := parent?_eq_some_iff.1 h
  exact arena.parent_lt hs hp

theorem lt_size_of_parent? (h : arena.parent? index = some parent) : index < arena.size := by
  obtain ⟨slot, hs, -⟩ := parent?_eq_some_iff.1 h
  exact lt_size_of_slot? hs

theorem parent?_eq_none (h : arena.size ≤ index) : arena.parent? index = none := by
  rw [parent?, slot?_eq_none_iff.2 h]
  rfl

theorem openedAt?_eq_none (h : arena.size ≤ index) : arena.openedAt? index = none := by
  rw [openedAt?, slot?_eq_none_iff.2 h]
  rfl

theorem parent?_root (symbol : Symbol) (index : Nat) : (root symbol).parent? index = none := by
  cases index with
  | zero => rfl
  | succ index => exact parent?_eq_none (Nat.succ_le_succ (Nat.zero_le _))

end

/-! ## What the operations do to links -/

section
variable (arena : Arena) (node : Nat)

theorem parent?_update (f : Slot → Slot) (hf : ∀ slot, (f slot).parent = slot.parent)
    (index : Nat) : (arena.update node f hf).parent? index = arena.parent? index := by
  unfold parent?
  rw [slot?_update]
  split
  · cases h : arena.slot? index with
    | none => rfl
    | some slot => exact hf slot
  · rfl

theorem openedAt?_update (f : Slot → Slot) (hf : ∀ slot, (f slot).parent = slot.parent)
    (ho : ∀ slot, (f slot).openedAt = slot.openedAt) (index : Nat) :
    (arena.update node f hf).openedAt? index = arena.openedAt? index := by
  unfold openedAt?
  rw [slot?_update]
  split
  · cases h : arena.slot? index with
    | none => rfl
    | some slot => exact ho slot
  · rfl

@[simp] theorem parent?_markOpened (position index : Nat) :
    (arena.markOpened node position).parent? index = arena.parent? index := parent?_update ..

@[simp] theorem openedAt?_setLine (line index : Nat) :
    (arena.setLine node line).openedAt? index = arena.openedAt? index :=
  openedAt?_update arena node ({ · with line }) (fun _ => rfl) (fun _ => rfl) index

@[simp] theorem openedAt?_setValue (value : Option String) (index : Nat) :
    (arena.setValue node value).openedAt? index = arena.openedAt? index :=
  openedAt?_update arena node ({ · with value }) (fun _ => rfl) (fun _ => rfl) index

theorem openedAt?_markOpened {position index : Nat} (hn : node < arena.size) :
    (arena.markOpened node position).openedAt? index =
      if node = index then some position else arena.openedAt? index := by
  unfold openedAt? markOpened
  rw [slot?_update]
  split
  · rename_i h
    obtain ⟨slot, hs⟩ := exists_slot? hn
    rw [← h, hs]
    rfl
  · rfl

variable (hn : node < arena.size) (symbol : Symbol) (index : Nat)

theorem parent?_addChild :
    (arena.addChild node hn symbol).parent? index =
      if index = arena.size then some node else arena.parent? index := by
  unfold parent?
  rw [slot?_addChild]
  split
  · rfl
  · split
    · cases arena.slot? index <;> rfl
    · rfl

theorem openedAt?_addChild :
    (arena.addChild node hn symbol).openedAt? index = arena.openedAt? index := by
  unfold openedAt?
  rw [slot?_addChild]
  split
  · rename_i h
    rw [h, slot?_eq_none_iff.2 (Nat.le_refl _)]
    rfl
  · split
    · cases arena.slot? index <;> rfl
    · rfl

@[simp] theorem openedAt?_addChildren (symbols : List Symbol) :
    (arena.addChildren node hn symbols).2.openedAt? index = arena.openedAt? index := by
  induction symbols generalizing arena with
  | nil => rfl
  | cons symbol symbols ih => rw [addChildren, ih, openedAt?_addChild]

end

/-! ## Links -/

/-- A slot lists those that name it as their parent, each once, and only the root has none. -/
structure Linked (arena : Arena) : Prop where
  nonempty : 0 < arena.size
  exists_parent : ∀ {index : Nat}, index < arena.size → index ≠ 0 →
    ∃ parent, arena.parent? index = some parent
  count_children : ∀ {index : Nat} {slot : Slot}, arena.slot? index = some slot → ∀ child,
    slot.children.count child = if arena.parent? child = some index then 1 else 0

namespace Linked
variable {arena : Arena}

theorem root (symbol : Symbol) : (Arena.root symbol).Linked where
  nonempty := Nat.one_pos
  exists_parent {index} hlt hne := absurd (Nat.lt_one_iff.1 hlt) hne
  count_children {index slot} hs child := by
    have hlt := lt_size_of_slot? hs
    obtain rfl : index = 0 := Nat.lt_one_iff.1 hlt
    obtain rfl : Slot.fresh symbol 1 none = slot := Option.some.inj hs
    rw [parent?_root]
    rfl

theorem update (h : arena.Linked) (node : Nat) (f : Slot → Slot)
    (hf : ∀ slot, (f slot).parent = slot.parent)
    (hc : ∀ slot, (f slot).children = slot.children) : (arena.update node f hf).Linked where
  nonempty := by
    rw [size_update]
    exact h.nonempty
  exists_parent {index} hlt hne := by
    rw [size_update] at hlt
    rw [parent?_update]
    exact h.exists_parent hlt hne
  count_children {index slot} hs child := by
    rw [parent?_update]
    rw [slot?_update] at hs
    split at hs
    · obtain ⟨old, hold, rfl⟩ := Option.map_eq_some_iff.1 hs
      rw [hc]
      exact h.count_children hold child
    · exact h.count_children hs child

theorem setLine (h : arena.Linked) (node line : Nat) : (arena.setLine node line).Linked :=
  h.update node _ _ fun _ => rfl

theorem setValue (h : arena.Linked) (node : Nat) (value : Option String) :
    (arena.setValue node value).Linked :=
  h.update node _ _ fun _ => rfl

theorem markOpened (h : arena.Linked) (node position : Nat) :
    (arena.markOpened node position).Linked :=
  h.update node _ _ fun _ => rfl

theorem addChild (h : arena.Linked) (node : Nat) (hn : node < arena.size) (symbol : Symbol) :
    (arena.addChild node hn symbol).Linked where
  nonempty := by
    rw [size_addChild]
    exact Nat.succ_pos _
  exists_parent {index} hlt hne := by
    rw [size_addChild] at hlt
    rw [parent?_addChild]
    split
    · exact ⟨node, rfl⟩
    · exact h.exists_parent (by omega) hne
  count_children {index slot} hs child := by
    have hindex := lt_size_of_slot? hs
    rw [size_addChild] at hindex
    rw [slot?_addChild] at hs
    rw [parent?_addChild]
    have hnew : arena.parent? arena.size ≠ some index := by
      rw [parent?_eq_none (Nat.le_refl _)]
      simp
    split at hs
    -- Nothing has the new slot as its parent.
    · rename_i hnewest
      obtain rfl := Option.some.inj hs
      have hparent : (if child = arena.size then some node else arena.parent? child) ≠
          some index := by
        split
        · exact fun he => Nat.ne_of_lt hn (Option.some.inj he ▸ hnewest)
        · intro hp
          have hbelow := lt_of_parent? hp
          have habove := lt_size_of_parent? hp
          omega
      rw [if_neg hparent]
      rfl
    · split at hs
      · rename_i hnode
        obtain ⟨old, hold, rfl⟩ := Option.map_eq_some_iff.1 hs
        rw [List.count_append, h.count_children hold]
        by_cases hchild : child = arena.size
        · rw [if_pos hchild, hchild, if_neg hnew, if_pos (congrArg some hnode)]
          simp
        · have hother : List.count child [arena.size] = 0 :=
            List.count_eq_zero.2 (by simpa using hchild)
          rw [if_neg hchild, hother, Nat.add_zero]
      · rename_i hnode
        rw [h.count_children hs]
        by_cases hchild : child = arena.size
        · rw [if_pos hchild, hchild, if_neg hnew, if_neg fun he => hnode (Option.some.inj he)]
        · rw [if_neg hchild]

theorem addChildren (h : arena.Linked) (node : Nat) (hn : node < arena.size)
    (symbols : List Symbol) : (arena.addChildren node hn symbols).2.Linked := by
  induction symbols generalizing arena with
  | nil => exact h
  | cons symbol symbols ih => exact ih (h.addChild node hn symbol) _

theorem nodup_children (h : arena.Linked) {index : Nat} {slot : Slot}
    (hs : arena.slot? index = some slot) : slot.children.Nodup := by
  refine List.nodup_iff_count_le_one.2 fun child => ?_
  rw [h.count_children hs]
  split <;> omega

theorem mem_children_iff (h : arena.Linked) {index child : Nat} {slot : Slot}
    (hs : arena.slot? index = some slot) :
    child ∈ slot.children ↔ arena.parent? child = some index := by
  rw [← List.count_pos_iff, h.count_children hs]
  split <;> simp [*]

end Linked

/-! ## Positions -/

/-- Parents were opened, none after its children, and none ahead of the input. -/
def Ordered (arena : Arena) (position : Nat) : Prop :=
  ∀ index parent, arena.parent? index = some parent →
    ∃ before, arena.openedAt? parent = some before ∧ before ≤ position ∧
      ∀ after, arena.openedAt? index = some after → before ≤ after

namespace Ordered
variable {arena : Arena} {position : Nat}

theorem mono (h : arena.Ordered position) {later : Nat} (hle : position ≤ later) :
    arena.Ordered later := by
  intro index parent hp
  obtain ⟨before, hb, hle', hafter⟩ := h _ _ hp
  exact ⟨before, hb, Nat.le_trans hle' hle, hafter⟩

theorem update (h : arena.Ordered position) (node : Nat) (f : Slot → Slot)
    (hf : ∀ slot, (f slot).parent = slot.parent)
    (ho : ∀ slot, (f slot).openedAt = slot.openedAt) :
    (arena.update node f hf).Ordered position := by
  intro index parent hp
  rw [parent?_update] at hp
  rw [openedAt?_update _ _ _ _ ho, openedAt?_update _ _ _ _ ho]
  exact h _ _ hp

theorem setLine (h : arena.Ordered position) (node line : Nat) :
    (arena.setLine node line).Ordered position :=
  h.update node _ _ fun _ => rfl

theorem setValue (h : arena.Ordered position) (node : Nat) (value : Option String) :
    (arena.setValue node value).Ordered position :=
  h.update node _ _ fun _ => rfl

/-- The node opened next has no children yet. -/
theorem markOpened (h : arena.Ordered position) {node : Nat} (hn : node < arena.size)
    (ho : arena.openedAt? node = none) : (arena.markOpened node position).Ordered position := by
  intro index parent hp
  rw [parent?_markOpened] at hp
  obtain ⟨before, hb, hle, hafter⟩ := h _ _ hp
  have hne : node ≠ parent := by
    rintro rfl
    rw [ho] at hb
    exact absurd hb (by simp)
  rw [openedAt?_markOpened _ _ hn, openedAt?_markOpened _ _ hn, if_neg hne]
  refine ⟨before, hb, hle, fun after ha => ?_⟩
  split at ha
  · exact Option.some.inj ha ▸ hle
  · exact hafter after ha

theorem addChild (h : arena.Ordered position) {node : Nat} (hn : node < arena.size)
    (ho : arena.openedAt? node = some position) (symbol : Symbol) :
    (arena.addChild node hn symbol).Ordered position := by
  intro index parent hp
  rw [parent?_addChild] at hp
  rw [openedAt?_addChild, openedAt?_addChild]
  split at hp
  · rename_i hindex
    obtain rfl := Option.some.inj hp
    refine ⟨position, ho, Nat.le_refl _, fun after ha => ?_⟩
    rw [openedAt?_eq_none (Nat.le_of_eq hindex.symm)] at ha
    exact absurd ha (by simp)
  · exact h _ _ hp

theorem addChildren (h : arena.Ordered position) {node : Nat} (hn : node < arena.size)
    (ho : arena.openedAt? node = some position) (symbols : List Symbol) :
    (arena.addChildren node hn symbols).2.Ordered position := by
  induction symbols generalizing arena with
  | nil => exact h
  | cons symbol symbols ih =>
    exact ih (h.addChild hn ho symbol) _ (by rwa [openedAt?_addChild])

/-- On the way up, nodes were opened ever earlier. -/
theorem exists_openedAt? (h : arena.Ordered position) {node top last : Nat}
    (hw : arena.IsWithin node top) (ho : arena.openedAt? node = some last) :
    ∃ first, arena.openedAt? top = some first ∧ first ≤ last := by
  induction hw with
  | refl => exact ⟨last, ho, Nat.le_refl _⟩
  | tail _ hp ih =>
    obtain ⟨first, hfirst, hle⟩ := ih
    obtain ⟨before, hb, -, hafter⟩ := h _ _ hp
    exact ⟨before, hb, Nat.le_trans (hafter first hfirst) hle⟩

end Ordered

/-! ## The walk upwards -/

/-- The node carries `symbol` and was opened at `position`. -/
def OpenedAs (arena : Arena) (symbol : Symbol) (position index : Nat) : Prop :=
  (arena.slot? index).map (·.symbol) = some symbol ∧ arena.openedAt? index = some position

section
variable {arena : Arena} {position : Nat}

/-- What was opened elsewhere was opened before, and so was all above it. -/
theorem Ordered.not_openedAs (h : arena.Ordered position) {index before : Nat}
    (ho : arena.openedAt? index = some before) (hlt : before < position) {symbol : Symbol}
    {ancestor : Nat} (hw : arena.IsWithin index ancestor) :
    ¬ arena.OpenedAs symbol position ancestor := by
  rintro ⟨-, hp⟩
  obtain ⟨first, hfirst, hle⟩ := h.exists_openedAt? hw ho
  rw [hp] at hfirst
  obtain rfl := Option.some.inj hfirst
  omega

theorem Ordered.reopensFrom_iff (h : arena.Ordered position) (symbol : Symbol)
    (current : Option Nat)
    (hc : ∀ index ∈ current, ∃ before, arena.openedAt? index = some before ∧ before ≤ position) :
    arena.reopensFrom symbol position current = true ↔
      ∃ index ∈ current, ∃ ancestor, arena.IsWithin index ancestor ∧
        arena.OpenedAs symbol position ancestor := by
  fun_induction arena.reopensFrom symbol position current with
  | case1 => simp
  | case2 index hs =>
    obtain ⟨before, hb, -⟩ := hc index rfl
    rw [openedAt?, hs] at hb
    exact absurd hb (by simp)
  | case3 index slot hs ho =>
    obtain ⟨before, hb, hle⟩ := hc index rfl
    have hslot : arena.openedAt? index = slot.openedAt := by rw [openedAt?, hs]; rfl
    have hne : before ≠ position := by
      rintro rfl
      exact ho (hslot ▸ hb)
    refine iff_of_false (by simp) ?_
    rintro ⟨other, hother, ancestor, hw, hopened⟩
    obtain rfl := Option.some.inj hother
    exact h.not_openedAs hb (by omega) hw hopened
  | case4 index slot hs ho hsymbol =>
    refine iff_of_true rfl ⟨index, rfl, index, .refl, ?_, ?_⟩
    · rw [hs, ← hsymbol]
      rfl
    · rw [openedAt?, hs]
      exact not_not.1 ho
  | case5 index slot hs ho hsymbol ih =>
    have hparent : arena.parent? index = slot.parent := by rw [parent?, hs]; rfl
    have hnot : ¬ arena.OpenedAs symbol position index := by
      rintro ⟨hsame, -⟩
      rw [hs] at hsame
      exact hsymbol (Option.some.inj hsame)
    rw [ih fun parent hp => by
      obtain ⟨before, hb, hle, -⟩ := h _ _ (hparent.trans hp)
      exact ⟨before, hb, hle⟩]
    constructor
    · rintro ⟨parent, hp, ancestor, hw, hopened⟩
      exact ⟨index, rfl, ancestor, .head (hparent.trans hp) hw, hopened⟩
    · rintro ⟨other, hother, ancestor, hw, hopened⟩
      obtain rfl := Option.some.inj hother
      rcases Relation.ReflTransGen.cases_head hw with rfl | ⟨parent, hp, hw⟩
      · exact absurd hopened hnot
      · exact ⟨parent, hparent ▸ hp, ancestor, hw, hopened⟩

theorem Ordered.reopens_iff (h : arena.Ordered position) (node : Nat) :
    arena.reopens node position = true ↔
      ∃ ancestor, arena.IsAncestor ancestor node ∧
        (arena.slot? ancestor).map (·.symbol) = (arena.slot? node).map (·.symbol) ∧
          arena.openedAt? ancestor = some position := by
  unfold reopens
  split
  · rename_i hs
    refine iff_of_false (by simp) ?_
    rintro ⟨ancestor, -, hsame, ho⟩
    obtain ⟨slot, hslot, -⟩ := Option.bind_eq_some_iff.1 ho
    rw [hs, hslot] at hsame
    exact absurd hsame (by simp)
  · rename_i slot hs
    have hparent : arena.parent? node = slot.parent := by rw [parent?, hs]; rfl
    rw [h.reopensFrom_iff, ← hparent, hs]
    · constructor
      · rintro ⟨parent, hp, ancestor, hw, hopened⟩
        exact ⟨ancestor, .head' hp hw, hopened⟩
      · rintro ⟨ancestor, ha, hopened⟩
        obtain ⟨parent, hp, hw⟩ := Relation.TransGen.head'_iff.1 ha
        exact ⟨parent, hp, ancestor, hw, hopened⟩
    · intro parent hp
      obtain ⟨before, hb, hle, -⟩ := h _ _ (hparent.trans hp)
      exact ⟨before, hb, hle⟩

end
end Arena

/-! ## Steps -/

namespace StackState
variable {g : PreparedGrammar} {terminals : List Terminal} {s t : StackState}

/-- A step works on the frame on top and the next terminal. -/
theorem exists_of_step? (h : s.step? g terminals = some t) :
    ∃ top below rest, ∃ hs : s.stack = top :: below :: rest, ∃ next,
      (inputOf terminals)[s.position]? = some next ∧
        t = s.apply hs g next (s.choose g top next.symbol) := by
  unfold step? at h
  split at h
  · rename_i top below rest hs
    obtain ⟨next, hn, rfl⟩ := Option.map_eq_some_iff.1 h
    exact ⟨top, below, rest, hs, next, hn, rfl⟩
  · exact absurd h (by simp)

theorem linked_step? (h : s.step? g terminals = some t) (hs : s.arena.Linked) :
    t.arena.Linked := by
  obtain ⟨top, below, rest, hstack, next, -, rfl⟩ := exists_of_step? h
  have hline := hs.setLine top.node next.line
  cases s.choose g top next.symbol with
  | expand index => exact (hline.markOpened top.node s.position).addChildren ..
  | accept => exact hline.setValue top.node next.value
  | skip => exact hs
  | cut | synch | vanish | replace => exact hline

/-- All but the end marker at the bottom wait to be opened, each for a node of its own. -/
structure Ordered (s : StackState) : Prop where
  arena : s.arena.Ordered s.position
  unopened : ∀ frame ∈ s.stack.dropLast, s.arena.openedAt? frame.node = none
  nodup : (s.stack.dropLast.map (·.node)).Nodup

theorem ordered_start (g : PreparedGrammar) : (start g).Ordered where
  arena index parent hp := by
    rw [start, Arena.parent?_root] at hp
    exact absurd hp (by simp)
  unopened frame hf := by
    obtain rfl := List.mem_singleton.1 hf
    rfl
  nodup := List.nodup_singleton _

namespace Ordered

theorem addError (h : s.Ordered) (line : Nat) (fault : SyntaxFault) :
    (s.addError line fault).Ordered := ⟨h.arena, h.unopened, h.nodup⟩

theorem advance (h : s.Ordered) : s.advance.Ordered :=
  ⟨h.arena.mono (Nat.le_succ _), h.unopened, h.nodup⟩

section
variable {top below : Frame} {rest : List Frame} (h : s.Ordered)
  (hs : s.stack = top :: below :: rest)
include h hs

theorem unopened_top : s.arena.openedAt? top.node = none :=
  h.unopened top (by simp [hs])

theorem unopened_rest : ∀ frame ∈ (below :: rest).dropLast,
    top.node ≠ frame.node ∧ s.arena.openedAt? frame.node = none := by
  intro frame hf
  have hnodup := h.nodup
  rw [hs, List.dropLast_cons_cons, List.map_cons, List.nodup_cons] at hnodup
  refine ⟨fun he => hnodup.1 (he ▸ List.mem_map_of_mem hf), h.unopened frame ?_⟩
  rw [hs, List.dropLast_cons_cons]
  exact List.mem_cons_of_mem top hf

theorem nodup_rest : ((below :: rest).dropLast.map (·.node)).Nodup := by
  have hnodup := h.nodup
  rw [hs, List.dropLast_cons_cons, List.map_cons, List.nodup_cons] at hnodup
  exact hnodup.2

theorem pop (line : Nat) : (s.pop hs line).Ordered where
  arena := h.arena.setLine top.node line
  unopened frame hf := by
    rw [StackState.pop, Arena.openedAt?_setLine]
    exact (h.unopened_rest hs frame hf).2
  nodup := h.nodup_rest hs

theorem fill (line : Nat) (value : Option String) : (s.fill hs line value).Ordered where
  arena := (h.arena.setLine top.node line).setValue top.node value
  unopened frame hf := by
    rw [StackState.fill, Arena.openedAt?_setValue, Arena.openedAt?_setLine]
    exact (h.unopened_rest hs frame hf).2
  nodup := h.nodup_rest hs

/-- The children are new, and of what was there only the node on top is opened. -/
theorem expand (line : Nat) (production : List Symbol) :
    (s.expand hs line production).Ordered := by
  have htop : top.node < (s.arena.setLine top.node line).size := by
    rw [Arena.size_setLine]
    exact s.top_lt hs
  have hopened (index : Nat) : (s.expand hs line production).arena.openedAt? index =
      if top.node = index then some s.position else s.arena.openedAt? index := by
    rw [StackState.expand, Arena.openedAt?_addChildren, Arena.openedAt?_markOpened _ _ htop,
      Arena.openedAt?_setLine]
  have hnodes : (Frame.ofChildren production
      (List.range' s.arena.size production.length)).map (·.node) =
        List.range' s.arena.size production.length :=
    Frame.nodes_ofChildren (Nat.le_of_eq List.length_range')
  refine ⟨?_, ?_, ?_⟩
  · refine ((h.arena.setLine top.node line).markOpened htop ?_).addChildren _ ?_ _
    · rw [Arena.openedAt?_setLine]
      exact h.unopened_top hs
    · rw [Arena.openedAt?_markOpened _ _ htop, if_pos rfl]
  · intro frame hf
    rw [stack_expand, List.dropLast_append_of_ne_nil (List.cons_ne_nil _ _), List.mem_append] at hf
    rw [hopened]
    rcases hf with hf | hf
    · have hge : s.arena.size ≤ frame.node :=
        (List.mem_range'_1.1 (hnodes ▸ List.mem_map_of_mem hf)).1
      rw [if_neg (Nat.ne_of_lt (Nat.lt_of_lt_of_le (s.top_lt hs) hge))]
      exact Arena.openedAt?_eq_none hge
    · obtain ⟨hne, ho⟩ := h.unopened_rest hs frame hf
      rw [if_neg hne]
      exact ho
  · rw [stack_expand, List.dropLast_append_of_ne_nil (List.cons_ne_nil _ _), List.map_append,
      hnodes, List.nodup_append]
    refine ⟨List.nodup_range', h.nodup_rest hs, fun child hc node hn he => ?_⟩
    obtain ⟨frame, hf, rfl⟩ := List.mem_map.1 hn
    have hge := (List.mem_range'_1.1 hc).1
    have hlt := s.rest_lt hs frame ((List.dropLast_sublist _).subset hf)
    omega

end
end Ordered

theorem ordered_step? (h : s.step? g terminals = some t) (hs : s.Ordered) : t.Ordered := by
  obtain ⟨top, below, rest, hstack, next, -, rfl⟩ := exists_of_step? h
  have hpop := hs.pop hstack next.line
  cases s.choose g top next.symbol with
  | expand index => exact hs.expand hstack next.line _
  | cut | synch => exact hpop.addError ..
  | skip => exact hs.advance.addError ..
  | vanish => exact hpop
  | accept => exact (hs.fill hstack next.line next.value).advance
  | replace => exact hpop.advance.addError ..

theorem Reached.linked (h : Reached g terminals s) : s.arena.Linked := by
  induction h with
  | start => exact .root _
  | step _ h ih => exact linked_step? h ih

theorem Reached.ordered (h : Reached g terminals s) : s.Ordered := by
  induction h with
  | start => exact ordered_start g
  | step _ h ih => exact ordered_step? h ih

end StackState

/-- In every state of a parse, for the node on top of the stack as for any other, the walk upwards
finds the symbol just if some ancestor, however far above, carries it and was opened where the
parser stands. -/
theorem reopens_iff_ancestor {g : PreparedGrammar} {terminals : List Terminal} {s : StackState}
    (h : StackState.Reached g terminals s) (node : Nat) :
    s.arena.reopens node s.position = true ↔
      ∃ ancestor, s.arena.IsAncestor ancestor node ∧
        (s.arena.slot? ancestor).map (·.symbol) = (s.arena.slot? node).map (·.symbol) ∧
          s.arena.openedAt? ancestor = some s.position :=
  h.ordered.arena.reopens_iff node

/-- The first rule of `A` leads back to `S` and is kept. -/
def Grammar.reentrant : Grammar where
  rules := [⟨"S", ["A", "SEMI"]⟩, ⟨"A", ["S", "COMMA"]⟩, ⟨"A", ["ID"]⟩]
  nonempty := by simp

/-- After two steps the second `S`, two levels below the first, is on top of the stack. -/
theorem reopens_iff_ancestor_reentrant :
    StackState.Reached (.ofGrammar .reentrant) [⟨"ID", some "x", 1⟩]
        (.after (.ofGrammar .reentrant) [⟨"ID", some "x", 1⟩] 2) ∧
      (StackState.after (.ofGrammar .reentrant) [⟨"ID", some "x", 1⟩] 2).stack.head? =
        some ⟨"S", 3⟩ ∧
      ∃ ancestor,
        (StackState.after (.ofGrammar .reentrant) [⟨"ID", some "x", 1⟩] 2).arena.IsAncestor
          ancestor 3 := by
  have hreached := StackState.reached_after (.ofGrammar .reentrant) [⟨"ID", some "x", 1⟩] 2
  have hreopens : (StackState.after (.ofGrammar .reentrant) [⟨"ID", some "x", 1⟩] 2).arena.reopens 3
      (StackState.after (.ofGrammar .reentrant) [⟨"ID", some "x", 1⟩] 2).position = true := by
    decide +kernel
  obtain ⟨ancestor, ha, -⟩ := (reopens_iff_ancestor hreached 3).1 hreopens
  exact ⟨hreached, by decide +kernel, ancestor, ha⟩

end FrontEnd
