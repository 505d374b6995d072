import FrontEnd.Grammar.Rule
import FrontEnd.Tree

/-! # Trees in an arena

A tree that grows at its nodes can be kept flat: each node has a slot that lists its children by
their indices and names its parent. The root has slot 0, and children come after their parent.

* `Arena.addChild`, `Arena.addChildren`: new slots at the end, which the parent lists.
* `Arena.setLine`, `Arena.setValue`, `Arena.markOpened`: what a node carries.
* `Arena.reopens`: whether the symbol of a node was opened around it with no input in between. The
  walk upwards stops at the first ancestor that was opened elsewhere.
* `Arena.toTree`: the tree, assembled from the last slot to the first.
-/

namespace FrontEnd
set_option autoImplicit false

structure Slot where
  symbol : Symbol
  line : Nat
  value : Option String
  children : List Nat
  parent : Option Nat
  /-- The position in the input at which the node was opened. -/
  openedAt : Option Nat
deriving DecidableEq, Repr

/-- The slot of a node that was not worked on yet. -/
def Slot.fresh (symbol : Symbol) (line : Nat) (parent : Option Nat) : Slot :=
  ⟨symbol, line, none, [], parent, none⟩

structure Arena where
  slots : Array Slot
  /-- Children come after their parent. -/
  parent_lt : ∀ {index : Nat} {slot : Slot} {parent : Nat},
    slots[index]? = some slot → slot.parent = some parent → parent < index

namespace Arena

def size (arena : Arena) : Nat := arena.slots.size

def slot? (arena : Arena) (index : Nat) : Option Slot := arena.slots[index]?

theorem slot?_eq_none_iff {arena : Arena} {index : Nat} :
    arena.slot? index = none ↔ arena.size ≤ index := Array.getElem?_eq_none_iff

theorem lt_size_of_slot? {arena : Arena} {index : Nat} {slot : Slot}
    (h : arena.slot? index = some slot) : index < arena.size :=
  (Array.getElem?_eq_some_iff.1 h).1

theorem exists_slot? {arena : Arena} {index : Nat} (h : index < arena.size) :
    ∃ slot, arena.slot? index = some slot :=
  ⟨arena.slots[index], Array.getElem?_eq_getElem h⟩

/-- The root alone, on line 1. -/
def root (symbol : Symbol) : Arena where
  slots := #[.fresh symbol 1 none]
  parent_lt {index slot parent} h hp := by
    obtain ⟨hlt, rfl⟩ := Array.getElem?_eq_some_iff.1 h
    obtain rfl : index = 0 := by simpa using hlt
    exact absurd hp (by simp [Slot.fresh])

/-! ## Nodes -/

def update (arena : Arena) (node : Nat) (f : Slot → Slot)
    (hf : ∀ slot, (f slot).parent = slot.parent) : Arena where
  slots := arena.slots.modify node f
  parent_lt {index slot parent} h hp := by
    rw [Array.getElem?_modify] at h
    split at h
    · obtain ⟨old, hold, rfl⟩ := Option.map_eq_some_iff.1 h
      exact arena.parent_lt hold (hf old ▸ hp)
    · exact arena.parent_lt h hp

@[simp] theorem size_update (arena : Arena) (node : Nat) (f : Slot → Slot)
    (hf : ∀ slot, (f slot).parent = slot.parent) : (arena.update node f hf).size = arena.size :=
  Array.size_modify

theorem slot?_update (arena : Arena) (node : Nat) (f : Slot → Slot)
    (hf : ∀ slot, (f slot).parent = slot.parent) (index : Nat) :
    (arena.update node f hf).slot? index =
      if node = index then (arena.slot? index).map f else arena.slot? index :=
  Array.getElem?_modify

def setLine (arena : Arena) (node line : Nat) : Arena :=
  arena.update node (fun slot => { slot with line }) fun _ => rfl

def setValue (arena : Arena) (node : Nat) (value : Option String) : Arena :=
  arena.update node (fun slot => { slot with value }) fun _ => rfl

def markOpened (arena : Arena) (node position : Nat) : Arena :=
  arena.update node (fun slot => { slot with openedAt := some position }) fun _ => rfl

section
variable (arena : Arena) (node : Nat)

@[simp] theorem size_setLine (line : Nat) : (arena.setLine node line).size = arena.size :=
  size_update ..

@[simp] theorem size_setValue (value : Option String) :
    (arena.setValue node value).size = arena.size :=
  size_update ..

@[simp] theorem size_markOpened (position : Nat) :
    (arena.markOpened node position).size = arena.size :=
  size_update ..

end

/-! ## Children -/

def addChild (arena : Arena) (parent : Nat) (h : parent < arena.size) (symbol : Symbol) :
    Arena where
  slots := (arena.slots.push (.fresh symbol 0 (some parent))).modify parent
    fun slot => { slot with children := slot.children ++ [arena.size] }
  parent_lt {index slot other} hs hp := by
    rw [Array.getElem?_modify, Array.getElem?_push] at hs
    have hpushed : ∀ {pushed : Slot}, (if index = arena.slots.size then
          some (Slot.fresh symbol 0 (some parent)) else arena.slots[index]?) = some pushed →
        pushed.parent = some other → other < index := by
      intro pushed hpushed hparent
      split at hpushed
      · rename_i hindex
        obtain rfl := Option.some.inj hpushed
        obtain rfl : parent = other := Option.some.inj hparent
        exact hindex ▸ h
      · exact arena.parent_lt hpushed hparent
    split at hs
    · obtain ⟨old, hold, rfl⟩ := Option.map_eq_some_iff.1 hs
      exact hpushed hold hp
    · exact hpushed hs hp

@[simp] theorem size_addChild (arena : Arena) (parent : Nat) (h : parent < arena.size)
    (symbol : Symbol) : (arena.addChild parent h symbol).size = arena.size + 1 := by
  simp [addChild, size]

theorem slot?_addChild (arena : Arena) (parent : Nat) (h : parent < arena.size) (symbol : Symbol)
    (index : Nat) :
    (arena.addChild parent h symbol).slot? index =
      if index = arena.size then some (.fresh symbol 0 (some parent))
      else if parent = index then
        (arena.slot? index).map fun slot => { slot with children := slot.children ++ [arena.size] }
      else arena.slot? index := by
  unfold addChild slot? size
  rw [Array.getElem?_modify, Array.getElem?_push]
  by_cases hindex : index = arena.slots.size
  · have hne : parent ≠ index := by
      rintro rfl
      exact Nat.lt_irrefl _ (hindex ▸ h)
    rw [if_neg hne, if_pos hindex, if_pos hindex]
  · rw [if_neg hindex, if_neg hindex]

/-- Adds the children in their order and gives their indices. -/
def addChildren (arena : Arena) (parent : Nat) (h : parent < arena.size) :
    List Symbol → List Nat × Arena
  | [] => ([], arena)
  | symbol :: rest =>
    let added := (arena.addChild parent h symbol).addChildren parent
      (by rw [size_addChild]; exact Nat.lt_succ_of_lt h) rest
    (arena.size :: added.1, added.2)

/-- The indices follow each other from the end of the arena. -/
theorem addChildren_fst (arena : Arena) (parent : Nat) (h : parent < arena.size)
    (symbols : List Symbol) :
    (arena.addChildren parent h symbols).1 = List.range' arena.size symbols.length := by
  induction symbols generalizing arena with
  | nil => rfl
  | cons symbol symbols ih =>
    rw [addChildren, ih, size_addChild, List.length_cons, List.range'_succ]

theorem size_addChildren (arena : Arena) (parent : Nat) (h : parent < arena.size)
    (symbols : List Symbol) :
    (arena.addChildren parent h symbols).2.size = arena.size + symbols.length := by
  induction symbols generalizing arena with
  | nil => rfl
  | cons symbol symbols ih =>
    rw [addChildren, ih, size_addChild, List.length_cons, Nat.add_right_comm, Nat.add_assoc]

/-! ## Ancestors -/

/-- Whether `symbol` is met on the way up from `current` before a node that was not opened at
`position`. -/
def reopensFrom (arena : Arena) (symbol : Symbol) (position : Nat) (current : Option Nat) : Bool :=
  match current with
  | none => false
  | some index =>
    match _ : arena.slot? index with
    | none => false
    | some slot =>
      if slot.openedAt ≠ some position then false
      else if slot.symbol = symbol then true
      else arena.reopensFrom symbol position slot.parent
termination_by current.elim 0 (· + 1)
decreasing_by
  have found : arena.slot? index = some slot := by assumption
  cases hp : slot.parent with
  | none => exact Nat.succ_pos _
  | some parent => exact Nat.succ_lt_succ (arena.parent_lt found hp)

def reopens (arena : Arena) (node position : Nat) : Bool :=
  match arena.slot? node with
  | none => false
  | some slot => arena.reopensFrom slot.symbol position slot.parent

/-! ## Assembly -/

/-- Takes the trees at the given places out, in this order. A place that is empty gives none. -/
def takeAll (built : Array (Option Tree)) : List Nat → List Tree × Array (Option Tree)
  | [] => ([], built)
  | index :: rest =>
    let taken := takeAll (built.setIfInBounds index none) rest
    (built[index]?.join.toList ++ taken.1, taken.2)

/-- Makes the tree of a slot of those of its children. -/
def build (arena : Arena) (index : Nat) (built : Array (Option Tree)) : Array (Option Tree) :=
  match arena.slot? index with
  | none => built
  | some slot =>
    let taken := takeAll built slot.children
    taken.2.setIfInBounds index (some ⟨slot.symbol, slot.line, slot.value, taken.1⟩)

/-- Makes the trees of the first `count` slots, the last one first. -/
def buildFrom (arena : Arena) : (count : Nat) → Array (Option Tree) → Array (Option Tree)
  | 0, built => built
  | index + 1, built => arena.buildFrom index (arena.build index built)

def toTree (arena : Arena) : Tree :=
  let built := arena.buildFrom arena.size (Array.replicate arena.size none)
  built[0]?.join.getD (.bare epsilon 1)

end Arena
end FrontEnd
