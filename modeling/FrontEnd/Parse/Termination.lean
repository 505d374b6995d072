import FrontEnd.Parse.Step

/-! # Every parse ends

A step lowers the weight of the pending symbols, which are the focus and those that wait in opened
nodes. A pending symbol weighs the `r`-th power of `B`. Here `B` exceeds the length of every
production, and `r`, its `Path.room`, counts the nonterminals that the cycle check would let
through before the next terminal is used, and one more than all nonterminals for each terminal
that is left.

* Opening a nonterminal replaces it by fewer than `B` symbols with less room
  (`PartialTree.weight_expand_lt`).
* Using a terminal leaves less room everywhere (`Path.weight_advance_le`).
* `ParseState.weight_step?_lt`: both together.
-/

namespace FrontEnd
set_option autoImplicit false

/-! ## Productions -/

namespace Grammar

/-- More than one and more than the length of every production. -/
def width (g : Grammar) : Nat := 2 + total (·.right.length) g.rules

theorem length_production_lt (g : Grammar) (index : Nat) :
    (g.production index).length < g.width := by
  unfold production width
  split
  · rename_i rule h
    have := le_total_of_mem (·.right.length) (List.mem_of_getElem? h)
    unfold Rule.production
    split
    · rw [List.length_nil]
      omega
    · omega
  · rw [List.length_nil]
    omega

/-- The weight of a pending symbol with this much room. -/
def pendingWeight (g : Grammar) : Nat → Nat
  | 0 => 1
  | room + 1 => g.width * g.pendingWeight room

theorem pendingWeight_pos (g : Grammar) (room : Nat) : 0 < g.pendingWeight room := by
  induction room with
  | zero => simp [pendingWeight]
  | succ room ih => exact Nat.mul_pos (by unfold width; omega) ih

theorem pendingWeight_lt_succ (g : Grammar) (room : Nat) :
    g.pendingWeight room < g.pendingWeight (room + 1) := by
  have h : 2 * g.pendingWeight room ≤ g.width * g.pendingWeight room :=
    Nat.mul_le_mul_right _ (by unfold width; omega)
  have := g.pendingWeight_pos room
  rw [pendingWeight]
  omega

theorem pendingWeight_le (g : Grammar) {room more : Nat} (h : room ≤ more) :
    g.pendingWeight room ≤ g.pendingWeight more := by
  induction h with
  | refl => exact Nat.le_refl _
  | step _ ih => exact Nat.le_trans ih (Nat.le_of_lt (g.pendingWeight_lt_succ _))

theorem pendingWeight_lt (g : Grammar) {room more : Nat} (h : room < more) :
    g.pendingWeight room < g.pendingWeight more :=
  Nat.lt_of_lt_of_le (g.pendingWeight_lt_succ room) (g.pendingWeight_le h)

theorem mem_nonterminals {g : Grammar} {symbol : Symbol} (h : g.isNonterminal symbol = true) :
    symbol ∈ g.nonterminals := by
  obtain ⟨rule, hm, he⟩ := List.any_eq_true.1 h
  exact List.mem_eraseDups.2 (List.mem_map.2 ⟨rule, hm, by simpa using he⟩)

end Grammar

/-! ## Room -/

namespace Path

/-- What can still be opened below the innermost node, with `left` terminals left. -/
def room (g : Grammar) (left position : Nat) (path : Path) : Nat :=
  left * (g.nonterminals.length + 1) +
    g.nonterminals.countP fun symbol => !path.reopens symbol position

/-- What is done in the innermost node and what waits there does not matter. -/
theorem room_congr (g : Grammar) (left position : Nat) (path : Path) (node : OpenNode)
    (done : List Tree) (waiting : List Symbol) :
    room g left position ({ node with done, waiting } :: path) =
      room g left position (node :: path) := by
  simp only [room, reopens, List.takeWhile_cons]
  split <;> rfl

theorem room_open_lt (g : Grammar) (left position : Nat) (path : Path) (node : OpenNode)
    (hn : g.isNonterminal node.symbol = true) (ho : node.openedAt = position)
    (hr : path.reopens node.symbol position = false) :
    room g left position (node :: path) < room g left position path := by
  refine Nat.add_lt_add_left (countP_lt_countP ?_ (Grammar.mem_nonterminals hn) ?_ (by simp [hr])) _
  · intro symbol _ h
    simp [reopens, ho] at h ⊢
    exact h.2
  · simp [reopens, ho]

theorem room_advance_lt (g : Grammar) (left position position' : Nat) (path path' : Path) :
    room g left position' path' < room g (left + 1) position path := by
  have : (g.nonterminals.countP fun symbol => !path'.reopens symbol position') ≤
      g.nonterminals.length := List.countP_le_length
  simp only [room, Nat.succ_mul]
  omega

/-! ## Weights -/

/-- The weight of all that waits in opened nodes. -/
def weight (g : Grammar) (left position : Nat) : Path → Nat
  | [] => 0
  | node :: path =>
    node.waiting.length * g.pendingWeight (room g left position (node :: path)) +
      weight g left position path

theorem weight_advance_le (g : Grammar) (left position position' : Nat) (path : Path) :
    path.weight g left position' ≤ path.weight g (left + 1) position := by
  induction path with
  | nil => exact Nat.le_refl _
  | cons node path ih =>
    exact Nat.add_le_add
      (Nat.mul_le_mul_left _
        (g.pendingWeight_le (Nat.le_of_lt (room_advance_lt g left position position' _ _))))
      ih

end Path

namespace PartialTree

def weight (g : Grammar) (left position : Nat) : PartialTree → Nat
  | complete _ => 0
  | focused path _ => g.pendingWeight (path.room g left position) + path.weight g left position

theorem weight_fill_le (g : Grammar) (left position : Nat) (tree : Tree) (path : Path) :
    (fill tree path).weight g left position ≤ path.weight g left position := by
  induction path generalizing tree with
  | nil => simp [fill, weight]
  | cons node path ih =>
    unfold fill
    split
    · have := ih (node.close [tree])
      simp only [Path.weight]
      omega
    · rename_i next waiting h
      simp only [weight, Path.weight, h, List.length_cons, Nat.succ_mul]
      rw [Path.room_congr g left position path node]
      omega

theorem weight_fill_lt (g : Grammar) (left position : Nat) (tree : Tree) (path : Path)
    (focus : Symbol) :
    (fill tree path).weight g left position < (focused path focus).weight g left position := by
  have h := weight_fill_le g left position tree path
  have := g.pendingWeight_pos (path.room g left position)
  simp only [weight] at h ⊢
  omega

theorem weight_expand_lt (g : Grammar) (left position line : Nat) (path : Path) (focus : Symbol)
    (production : List Symbol) (hn : g.isNonterminal focus = true)
    (hr : path.reopens focus position = false) (hl : production.length < g.width) :
    (expand path focus line position production).weight g left position <
      (focused path focus).weight g left position := by
  match production, hl with
  | [], _ => exact weight_fill_lt g left position _ path focus
  | first :: waiting, hl =>
    have hroom := Path.room_open_lt g left position path
      ⟨focus, line, position, [], waiting⟩ hn rfl hr
    generalize hr' : Path.room g left position (⟨focus, line, position, [], waiting⟩ :: path) = r'
      at hroom
    simp only [expand, weight, Path.weight, hr', List.length_cons] at hl ⊢
    have h1 : (waiting.length + 1) * g.pendingWeight r' < g.width * g.pendingWeight r' :=
      Nat.mul_lt_mul_of_pos_right hl (g.pendingWeight_pos r')
    have h2 : g.width * g.pendingWeight r' ≤ g.pendingWeight (path.room g left position) :=
      g.pendingWeight_le hroom
    rw [Nat.succ_mul] at h1
    omega

theorem weight_advance_lt (g : Grammar) (left position position' : Nat) (path : Path)
    (focus : Symbol) :
    (focused path focus).weight g left position' <
      (focused path focus).weight g (left + 1) position :=
  Nat.add_lt_add_of_lt_of_le
    (g.pendingWeight_lt (Path.room_advance_lt g left position position' path path))
    (Path.weight_advance_le g left position position' path)

end PartialTree

/-! ## Steps -/

namespace ParseState

def weight (g : Grammar) (s : ParseState) : Nat :=
  s.tree.weight g s.input.length s.position

theorem weight_step?_lt {g : PreparedGrammar} {s t : ParseState} (h : s.step? g = some t) :
    t.weight g.normalized < s.weight g.normalized := by
  obtain ⟨tree, input, position, errors⟩ := s
  match tree, input with
  | .complete _, _ => simp [step?] at h
  | .focused _ _, [] => simp [step?] at h
  | .focused path focus, next :: rest =>
    obtain rfl := Option.some.inj h
    have hfill := fun value =>
      PartialTree.weight_fill_lt g.normalized (rest.length + 1) position
        ⟨focus, next.line, value, []⟩ path focus
    have hskip :=
      PartialTree.weight_advance_lt g.normalized rest.length position (position + 1) path focus
    have huse := fun value =>
      Nat.lt_trans
        (PartialTree.weight_fill_lt g.normalized rest.length (position + 1)
          ⟨focus, next.line, value, []⟩ path focus)
        hskip
    unfold Action.choose
    split
    · rename_i hn
      split
      · exact hskip
      · exact hfill none
      · split
        · exact hfill none
        · rename_i hr
          exact PartialTree.weight_expand_lt _ _ position _ _ _ _ hn (by simpa using hr)
            (Grammar.length_production_lt _ _)
    · split
      · exact hfill none
      · split
        · exact huse next.value
        · exact huse none

end ParseState
end FrontEnd
