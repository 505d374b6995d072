import FrontEnd.Proofs.Parse.Assembly
import FrontEnd.Proofs.Parse.Run

/-! # The stack and the focus

A parse with a stack goes through the same steps as one with a focus. The opened nodes around the
focus are the ancestors of the node on top, their finished children are unfolded from the arena,
and the symbols that wait are the frames below.

* `Arena.Around`: what the arena and the stack hold around a node; `Around.congr`: only what is not
  below the node matters.
* `Arena.Stands`: a tree under construction, held by an arena and a stack.
* `StackState.Matches`: the same state twice; `matches_step?`: both go on in the same way.
* `StackState.Reached.outcome_eq`: both parses have the same outcome.
* `arena_assembled`: links, unfolding, size and nodes of the arena of a parse.
-/

namespace FrontEnd
set_option autoImplicit false

namespace Arena

/-! ## Subtrees -/

section
variable {arena : Arena}

theorem IsWithin.le {node top : Nat} (h : arena.IsWithin node top) : top ≤ node := by
  induction h with
  | refl => exact Nat.le_refl _
  | tail _ hp ih => exact Nat.le_trans (Nat.le_of_lt (lt_of_parent? hp)) ih

/-- What is within a child is the child or within what its parent is within. -/
theorem IsWithin.of_child {node parent top : Nat} (h : arena.IsWithin node top)
    (hp : arena.parent? node = some parent) : node = top ∨ arena.IsWithin parent top := by
  rcases Relation.ReflTransGen.cases_head h with rfl | ⟨other, hother, hw⟩
  · exact Or.inl rfl
  · obtain rfl := Option.some.inj (hp.symm.trans hother)
    exact Or.inr hw

/-- The subtrees of siblings have nothing in common. -/
theorem not_within_sibling {parent child sibling : Nat} (hc : arena.parent? child = some parent)
    (hs : arena.parent? sibling = some parent) (hne : child ≠ sibling) {node : Nat}
    (h : arena.IsWithin node child) : ¬ arena.IsWithin node sibling := by
  intro h'
  have hunique : Relator.RightUnique arena.IsChild := fun _ _ _ hb hc =>
    Option.some.inj (hb.symm.trans hc)
  have hbelow {top : Nat} (htop : arena.parent? top = some parent) :
      ¬ arena.IsWithin parent top := fun hw =>
    Nat.not_le.2 (lt_of_parent? htop) hw.le
  rcases Relation.ReflTransGen.total_of_right_unique hunique h h' with hw | hw
  · rcases IsWithin.of_child hw hc with he | hw
    · exact hne he
    · exact hbelow hs hw
  · rcases IsWithin.of_child hw hs with he | hw
    · exact hne he.symm
    · exact hbelow hc hw

theorem UnfoldsAll.append {indices others : List Nat} {trees trees' : List Tree}
    (h : arena.UnfoldsAll indices trees) (h' : arena.UnfoldsAll others trees') :
    arena.UnfoldsAll (indices ++ others) (trees ++ trees') := by
  induction indices generalizing trees with
  | nil =>
    cases h
    exact h'
  | cons index indices ih =>
    cases h with
    | cons h hr => exact .cons h (ih hr)

end

mutual

/-- A tree depends on the slots below its root alone. -/
theorem Unfolds.congr {arena other : Arena} (hl : arena.Linked) {index : Nat} {tree : Tree}
    (h : arena.Unfolds index tree)
    (ha : ∀ node slot, arena.slot? node = some slot → arena.IsWithin node index →
      other.slot? node = some slot) : other.Unfolds index tree := by
  obtain ⟨hs, ht⟩ := h
  refine .node (ha _ _ hs .refl) (UnfoldsAll.congr hl ht fun child hc node slot hn hw => ?_)
  exact ha node slot hn (hw.tail ((hl.mem_children_iff hs).1 hc))

theorem UnfoldsAll.congr {arena other : Arena} (hl : arena.Linked) {indices : List Nat}
    {trees : List Tree} (h : arena.UnfoldsAll indices trees)
    (ha : ∀ index ∈ indices, ∀ node slot, arena.slot? node = some slot →
      arena.IsWithin node index → other.slot? node = some slot) :
    other.UnfoldsAll indices trees := by
  cases h with
  | nil => exact .nil
  | cons h hr =>
    refine .cons (Unfolds.congr hl h (ha _ (by simp))) (UnfoldsAll.congr hl hr fun index hi => ?_)
    exact ha index (List.mem_cons_of_mem _ hi)

end

/-! ## Around a node -/

/-- Around `hole`, the arena holds the opened nodes of the path, and the stack what waits there. -/
inductive Around (arena : Arena) : Path → Nat → List Frame → Prop
  | root : Around arena [] 0 [⟨endMarker, 0⟩]
  | inside {path : Path} {node : OpenNode} {parent hole : Nat} {above : Option Nat}
      {done : List Nat} {waiting stack : List Frame}
      (hs : arena.slot? parent = some ⟨node.symbol, node.line, none,
        done ++ hole :: waiting.map (·.node), above, some node.openedAt⟩)
      (hd : arena.UnfoldsAll done node.done) (hw : waiting.map (·.symbol) = node.waiting)
      (hf : ∀ frame ∈ waiting,
        arena.slot? frame.node = some (.fresh frame.symbol 0 (some parent)))
      (h : Around arena path parent stack) : Around arena (node :: path) hole (waiting ++ stack)

/-- The tree under construction is held by the arena, and the symbols that wait by the stack. -/
inductive Stands (arena : Arena) : PartialTree → List Frame → Prop
  | complete {tree : Tree} (h : arena.Unfolds 0 tree) :
      Stands arena (.complete tree) [⟨endMarker, 0⟩]
  | focused {path : Path} {focus : Symbol} {hole : Nat} {above : Option Nat} {stack : List Frame}
      (hs : arena.slot? hole = some (.fresh focus (if path = [] then 1 else 0) above))
      (h : Around arena path hole stack) :
      Stands arena (.focused path focus) (⟨focus, hole⟩ :: stack)

namespace Around
variable {arena other : Arena} {path : Path} {hole : Nat} {stack : List Frame}

theorem ne_nil (h : arena.Around path hole stack) : stack ≠ [] := by
  induction h with
  | root => exact List.cons_ne_nil _ _
  | inside _ _ _ _ _ ih => exact List.append_ne_nil_of_right_ne_nil _ ih

/-- What happens at the hole or below it leaves all around it alone. -/
theorem congr (hl : arena.Linked) (h : arena.Around path hole stack)
    (ha : ∀ node slot, arena.slot? node = some slot → ¬ arena.IsWithin node hole →
      other.slot? node = some slot) : other.Around path hole stack := by
  induction h with
  | root => exact .root
  | @inside path node parent hole above done waiting stack hs hd hw hf h ih =>
    have hmem {child : Nat} : child ∈ done ++ hole :: waiting.map (·.node) ↔
        arena.parent? child = some parent := hl.mem_children_iff hs
    have hnodup := hl.nodup_children hs
    have hhole : arena.parent? hole = some parent := hmem.1 (by simp)
    have hparent : ¬ arena.IsWithin parent hole := fun hw =>
      Nat.not_le.2 (lt_of_parent? hhole) hw.le
    have hsibling {child : Nat} (hc : arena.parent? child = some parent) (hne : child ≠ hole)
        (node : Nat) (hw : arena.IsWithin node child) : ¬ arena.IsWithin node hole :=
      not_within_sibling hc hhole hne hw
    refine .inside (ha _ _ hs hparent) (hd.congr hl fun child hc node slot hn hw => ?_) hw
      (fun frame hframe => ha _ _ (hf frame hframe) ?_) (ih fun node slot hn hnot => ?_)
    · refine ha _ _ hn (hsibling (hmem.1 (List.mem_append_left _ hc)) ?_ node hw)
      rintro rfl
      exact (List.disjoint_of_nodup_append hnodup) hc (by simp)
    · have hc : frame.node ∈ done ++ hole :: waiting.map (·.node) := by
        simp only [List.mem_append, List.mem_cons]
        exact Or.inr (Or.inr (List.mem_map_of_mem hframe))
      refine hsibling (hmem.1 hc) ?_ _ .refl
      intro he
      have hrest := (List.nodup_append.1 hnodup).2.1
      exact (List.nodup_cons.1 hrest).1 (he ▸ List.mem_map_of_mem hframe)
    · exact ha node slot hn fun hw => hnot (hw.tail hhole)

/-- A finished tree at the hole moves the focus to what waits next. -/
theorem stands_fill (h : arena.Around path hole stack) {tree : Tree}
    (ht : arena.Unfolds hole tree) : arena.Stands (.fill tree path) stack := by
  induction h generalizing tree with
  | root => exact .complete ht
  | @inside path node parent hole above done waiting stack hs hd hw hf h ih =>
    have hdone : arena.UnfoldsAll (done ++ [hole]) (node.done ++ [tree]) := hd.append (.cons ht .nil)
    unfold PartialTree.fill
    cases waiting with
    | nil =>
      rw [← hw]
      exact ih (.node hs hdone)
    | cons frame waiting =>
      rw [← hw]
      rw [List.map_cons, List.append_cons] at hs
      exact .focused (hf frame (by simp)) (.inside hs hdone rfl
        (fun other ho => hf other (List.mem_cons_of_mem _ ho)) h)

theorem unfolds_assemble (h : arena.Around path hole stack) {tree : Tree}
    (ht : arena.Unfolds hole tree) : arena.Unfolds 0 (PartialTree.assemble tree path) := by
  induction h generalizing tree with
  | root => exact ht
  | @inside path node parent hole above done waiting stack hs hd hw hf h ih =>
    refine ih (.node hs (hd.append (.cons ht ?_)))
    rw [← hw]
    clear hs hw
    induction waiting with
    | nil => exact .nil
    | cons frame waiting ih =>
      exact .cons (.node (hf frame (by simp)) .nil)
        (ih fun other ho => hf other (List.mem_cons_of_mem _ ho))

/-- Both walks upwards see the same nodes. -/
theorem reopensFrom_eq (hl : arena.Linked) (h : arena.Around path hole stack) (symbol : Symbol)
    (position : Nat) :
    arena.reopensFrom symbol position (arena.parent? hole) = path.reopens symbol position := by
  induction h with
  | root =>
    have hnone : arena.parent? 0 = none :=
      Option.eq_none_iff_forall_ne_some.2 fun parent hp => Nat.not_lt_zero _ (lt_of_parent? hp)
    rw [hnone, reopensFrom]
    rfl
  | @inside path node parent hole above done waiting stack hs hd hw hf h ih =>
    have hhole : arena.parent? hole = some parent := (hl.mem_children_iff hs).1 (by simp)
    have habove : arena.parent? parent = above := by rw [parent?, hs]; rfl
    rw [hhole, reopensFrom]
    split
    · rename_i hnone
      rw [hs] at hnone
      exact absurd hnone (by simp)
    · rename_i slot hslot
      obtain rfl := Option.some.inj (hs.symm.trans hslot)
      rw [Path.reopens, List.takeWhile_cons]
      by_cases ho : node.openedAt = position
      · by_cases hsymbol : node.symbol = symbol
        · simp [ho, hsymbol]
        · have hother : (node.symbol == symbol) = false := by simpa using hsymbol
          rw [habove] at ih
          simpa [ho, hsymbol, hother, Path.reopens] using ih
      · simp [ho]

theorem reopens_eq (hl : arena.Linked) (h : arena.Around path hole stack) {focus : Symbol}
    {line : Nat} {above : Option Nat} (hs : arena.slot? hole = some (.fresh focus line above))
    (position : Nat) : arena.reopens hole position = path.reopens focus position := by
  have habove : arena.parent? hole = above := by rw [parent?, hs]; rfl
  rw [← h.reopensFrom_eq hl, habove, reopens, hs]
  rfl

/-- The hole becomes a node without children. -/
theorem stands_leaf (hl : arena.Linked) (h : arena.Around path hole stack)
    (ha : ∀ node, node < arena.size → hole ≠ node → other.slot? node = arena.slot? node)
    {slot : Slot} (hs : other.slot? hole = some slot) (hc : slot.children = []) :
    other.Stands (.fill ⟨slot.symbol, slot.line, slot.value, []⟩ path) stack := by
  refine (h.congr hl fun node old hn hw => ?_).stands_fill (.node hs (hc ▸ .nil))
  exact (ha node (lt_size_of_slot? hn) fun he => hw (he ▸ .refl)).trans hn

end Around

/-! ## What the operations do around a node -/

section
variable {arena : Arena} {node index : Nat}

theorem slot?_update_of_ne {f : Slot → Slot} {hf : ∀ slot, (f slot).parent = slot.parent}
    (h : node ≠ index) : (arena.update node f hf).slot? index = arena.slot? index := by
  rw [slot?_update, if_neg h]

theorem slot?_update_self {f : Slot → Slot} {hf : ∀ slot, (f slot).parent = slot.parent}
    {slot : Slot} (h : arena.slot? node = some slot) :
    (arena.update node f hf).slot? node = some (f slot) := by
  rw [slot?_update, if_pos rfl, h, Option.map_some]

theorem slot?_addChildren_of_ne (hn : node < arena.size) (symbols : List Symbol)
    (hi : index < arena.size) (h : node ≠ index) :
    (arena.addChildren node hn symbols).2.slot? index = arena.slot? index := by
  induction symbols generalizing arena with
  | nil => rfl
  | cons symbol symbols ih =>
    have hlt : index < (arena.addChild node hn symbol).size := by
      rw [size_addChild]
      exact Nat.lt_succ_of_lt hi
    rw [addChildren, ih _ hlt, slot?_addChild, if_neg (Nat.ne_of_lt hi), if_neg h]

theorem slot?_addChildren_self (hn : node < arena.size) (symbols : List Symbol) {slot : Slot}
    (hs : arena.slot? node = some slot) :
    (arena.addChildren node hn symbols).2.slot? node =
      some { slot with
        children := slot.children ++ List.range' arena.size symbols.length } := by
  induction symbols generalizing arena slot with
  | nil => simpa [addChildren] using hs
  | cons symbol symbols ih =>
    have hadd : (arena.addChild node hn symbol).slot? node =
        some { slot with children := slot.children ++ [arena.size] } := by
      rw [slot?_addChild, if_neg (Nat.ne_of_lt hn), if_pos rfl, hs, Option.map_some]
    rw [addChildren, ih _ hadd, size_addChild, List.length_cons, List.range'_succ]
    simp only [List.append_assoc, List.singleton_append]

/-- New nodes were not worked on yet. -/
theorem slot?_addChildren_new (hn : node < arena.size) (symbols : List Symbol) :
    ∀ frame ∈ Frame.ofChildren symbols (List.range' arena.size symbols.length),
      (arena.addChildren node hn symbols).2.slot? frame.node =
        some (.fresh frame.symbol 0 (some node)) := by
  induction symbols generalizing arena with
  | nil => exact fun frame hf => absurd hf List.not_mem_nil
  | cons symbol symbols ih =>
    intro frame hf
    rw [List.length_cons, List.range'_succ] at hf
    rcases List.mem_cons.1 hf with rfl | hf
    · have hlt : arena.size < (arena.addChild node hn symbol).size := by
        rw [size_addChild]
        exact Nat.lt_succ_self _
      dsimp only
      rw [addChildren, slot?_addChildren_of_ne _ _ hlt (Nat.ne_of_lt hn), slot?_addChild,
        if_pos rfl]
    · refine @ih (arena.addChild node hn symbol) _ frame ?_
      rwa [size_addChild]

end

section
variable {arena : Arena} {path : Path} {hole : Nat} {stack : List Frame}
  (hl : arena.Linked) (h : arena.Around path hole stack) {focus : Symbol} {line : Nat}
  {above : Option Nat} (hs : arena.slot? hole = some (.fresh focus line above))
include hl h hs

theorem Around.stands_setLine (line : Nat) :
    (arena.setLine hole line).Stands (.fill ⟨focus, line, none, []⟩ path) stack :=
  h.stands_leaf hl (fun _ _ hne => slot?_update_of_ne hne) (slot?_update_self hs) rfl

theorem Around.stands_setValue (line : Nat) (value : Option String) :
    ((arena.setLine hole line).setValue hole value).Stands (.fill ⟨focus, line, value, []⟩ path)
      stack :=
  h.stands_leaf hl (fun _ _ hne => (slot?_update_of_ne hne).trans (slot?_update_of_ne hne))
    (slot?_update_self (slot?_update_self hs)) rfl

theorem Around.stands_addChildren (line position : Nat) (production : List Symbol)
    (hn : hole < ((arena.setLine hole line).markOpened hole position).size) :
    (((arena.setLine hole line).markOpened hole position).addChildren hole hn production).2.Stands
      (.expand path focus line position production)
      (Frame.ofChildren production (List.range' arena.size production.length) ++ stack) := by
  have hopened : ((arena.setLine hole line).markOpened hole position).slot? hole =
      some ⟨focus, line, none, [], above, some position⟩ :=
    slot?_update_self (slot?_update_self hs)
  have hother (node : Nat) (hne : hole ≠ node) :
      ((arena.setLine hole line).markOpened hole position).slot? node = arena.slot? node :=
    (slot?_update_of_ne hne).trans (slot?_update_of_ne hne)
  have hsize : ((arena.setLine hole line).markOpened hole position).size = arena.size := by
    rw [size_markOpened, size_setLine]
  generalize (arena.setLine hole line).markOpened hole position = opened at *
  cases production with
  | nil => exact h.stands_leaf hl (fun node _ hne => hother node hne) hopened rfl
  | cons first waiting =>
    have hself := slot?_addChildren_self hn (first :: waiting) hopened
    have hnew := slot?_addChildren_new hn (first :: waiting)
    rw [hsize, List.length_cons, List.range'_succ] at hself hnew
    rw [List.length_cons, List.range'_succ]
    obtain ⟨hfirst, hwaiting⟩ := List.forall_mem_cons.1 hnew
    have hlength : (List.range' (arena.size + 1) waiting.length).length = waiting.length :=
      List.length_range'
    rw [← Frame.nodes_ofChildren (Nat.le_of_eq hlength)] at hself
    refine .focused hfirst (.inside hself .nil
      (Frame.symbols_ofChildren (Nat.le_of_eq hlength.symm)) hwaiting
      (h.congr hl fun node slot hn hw => ?_))
    have hne : hole ≠ node := fun he => hw (he ▸ .refl)
    have hlt := lt_size_of_slot? hn
    rw [slot?_addChildren_of_ne _ _ (hsize ▸ hlt) hne, hother node hne]
    exact hn

end

/-- Whatever is not finished is bare in the tree. -/
theorem Stands.unfolds {arena : Arena} {tree : PartialTree} {stack : List Frame}
    (h : arena.Stands tree stack) : arena.Unfolds 0 tree.toTree := by
  cases h with
  | complete h => exact h
  | @focused path focus hole above stack hs h =>
    cases path with
    | nil =>
      cases h
      exact .node hs .nil
    | cons node path => exact h.unfolds_assemble (.node hs .nil)

end Arena

/-! ## Steps -/

namespace StackState
variable {g : PreparedGrammar} {terminals : List Terminal} {s : StackState} {z : ParseState}

theorem step?_of_stack_eq {top below : Frame} {rest : List Frame}
    (hs : s.stack = top :: below :: rest) :
    s.step? g terminals = (inputOf terminals)[s.position]?.map fun next =>
      s.apply hs g next (s.choose g top next.symbol) := by
  unfold step?
  split
  · rename_i hs'
    obtain ⟨rfl, h⟩ := List.cons.inj (hs'.symm.trans hs)
    obtain ⟨rfl, rfl⟩ := List.cons.inj h
    rfl
  · rename_i hnot
    exact absurd hs (hnot _ _ _)

theorem step?_of_singleton {frame : Frame} (hs : s.stack = [frame]) :
    s.step? g terminals = none := by
  unfold step?
  split
  · rename_i hs'
    exact absurd (hs'.symm.trans hs) (by simp)
  · rfl

/-- Both states say the same. -/
structure Matches (terminals : List Terminal) (s : StackState) (z : ParseState) : Prop where
  linked : s.arena.Linked
  tree : s.arena.Stands z.tree s.stack
  input : z.input = (inputOf terminals).drop s.position
  position : z.position = s.position
  errors : z.errors = s.errors

namespace Matches

theorem start (g : PreparedGrammar) (terminals : List Terminal) :
    Matches terminals (start g) (.ofTerminals g terminals) where
  linked := .root _
  tree := .focused rfl .root
  input := rfl
  position := rfl
  errors := rfl

theorem addError (h : Matches terminals s z) (line : Nat) (fault : SyntaxFault) :
    Matches terminals (s.addError line fault) (z.addError line fault) :=
  { h with errors := by rw [ParseState.addError, h.errors]; rfl }

theorem advance (h : Matches terminals s z) : Matches terminals s.advance z.advance :=
  { h with
    input := by rw [ParseState.advance, h.input, List.tail_drop]; rfl
    position := by rw [ParseState.advance, h.position]; rfl }

section
variable (h : Matches terminals s z) {path : Path} {focus : Symbol} {hole : Nat}
  {above : Option Nat} {rest : List Frame} (hs : s.stack = ⟨focus, hole⟩ :: rest) {line : Nat}
  (hslot : s.arena.slot? hole = some (.fresh focus line above))
  (haround : s.arena.Around path hole rest)
include h hslot haround

theorem pop (line : Nat) : Matches terminals (s.pop hs line) (z.finish path focus none line) where
  linked := h.linked.setLine hole line
  tree := haround.stands_setLine h.linked hslot line
  input := h.input
  position := h.position
  errors := h.errors

theorem fill (line : Nat) (value : Option String) :
    Matches terminals (s.fill hs line value) (z.finish path focus value line) where
  linked := (h.linked.setLine hole line).setValue hole value
  tree := haround.stands_setValue h.linked hslot line value
  input := h.input
  position := h.position
  errors := h.errors

theorem expand (line : Nat) (production : List Symbol) :
    Matches terminals (s.expand hs line production)
      { z with tree := .expand path focus line z.position production } where
  linked := ((h.linked.setLine hole line).markOpened hole s.position).addChildren ..
  tree := by
    rw [stack_expand, h.position]
    exact haround.stands_addChildren h.linked hslot line s.position production _
  input := h.input
  position := h.position
  errors := h.errors

theorem choose_eq (found : Symbol) :
    s.choose g ⟨focus, hole⟩ found = .choose g path focus z.position found := by
  have hreopens := haround.reopens_eq h.linked hslot s.position
  unfold choose Action.choose
  rw [h.position]
  dsimp only
  generalize path.reopens focus s.position = reopens at hreopens ⊢
  subst hreopens
  rfl

theorem apply (next : Terminal) (action : Action) :
    Matches terminals (s.apply hs g next action) (z.apply g path focus next action) := by
  have hpop := h.pop hs hslot haround next.line
  cases action with
  | expand index => exact h.expand hs hslot haround next.line _
  | cut | synch => exact hpop.addError ..
  | skip => exact h.advance.addError ..
  | vanish => exact hpop
  | accept => exact (h.fill hs hslot haround next.line next.value).advance
  | replace => exact hpop.advance.addError ..

end

/-- The input that is left begins with the terminal at the position, if there is one. -/
theorem input_eq_nil (h : Matches terminals s z) (hn : (inputOf terminals)[s.position]? = none) :
    z.input = [] :=
  h.input.trans (List.drop_eq_nil_of_le (List.getElem?_eq_none_iff.1 hn))

theorem input_eq_cons (h : Matches terminals s z) {next : Terminal}
    (hn : (inputOf terminals)[s.position]? = some next) :
    z.input = next :: (inputOf terminals).drop (s.position + 1) := by
  obtain ⟨hlt, rfl⟩ := List.getElem?_eq_some_iff.1 hn
  exact h.input.trans (List.drop_eq_getElem_cons hlt)

/-- Both parses go on in the same way, or neither does. -/
theorem step? (h : Matches terminals s z) :
    (s.step? g terminals = none ∧ z.step? g = none) ∨
      ∃ s' z', s.step? g terminals = some s' ∧ z.step? g = some z' ∧ Matches terminals s' z' := by
  have htree := h.tree
  generalize ht : z.tree = tree, hs : s.stack = stack at htree
  cases htree with
  | complete => exact Or.inl ⟨step?_of_singleton hs, by rw [ParseState.step?, ht]⟩
  | @focused path focus hole above stack hslot haround =>
    obtain ⟨below, rest, rfl⟩ := List.exists_cons_of_ne_nil haround.ne_nil
    rw [step?_of_stack_eq hs]
    cases hn : (inputOf terminals)[s.position]? with
    | none => exact Or.inl ⟨rfl, by rw [ParseState.step?, ht, h.input_eq_nil hn]⟩
    | some next =>
      refine Or.inr ⟨_, _, rfl, ParseState.step?_of_focused ht (h.input_eq_cons hn), ?_⟩
      dsimp only
      rw [h.choose_eq hslot haround]
      exact h.apply hs hslot haround next _

theorem trailing_eq (h : Matches terminals s z) : s.trailing terminals = z.trailing := by
  have htree := h.tree
  generalize ht : z.tree = tree, hs : s.stack = stack at htree
  unfold trailing ParseState.trailing
  cases htree with
  | complete =>
    rw [ht, hs]
    cases hn : terminals[s.position]? with
    | none =>
      have hle := List.getElem?_eq_none_iff.1 hn
      have hshort : z.input.length ≤ 1 := by
        rw [h.input, List.length_drop, inputOf, List.length_append, List.length_singleton]
        omega
      match hi : z.input with
      | [] => rfl
      | [next] => rfl
      | next :: other :: rest =>
        rw [hi] at hshort
        simp at hshort
    | some next =>
      have hlt := (List.getElem?_eq_some_iff.1 hn).1
      have hnext : (inputOf terminals)[s.position]? = some next :=
        (List.getElem?_append_left hlt).trans hn
      have hrest : (inputOf terminals).drop (s.position + 1) ≠ [] := by
        rw [ne_eq, List.drop_eq_nil_iff, inputOf, List.length_append, List.length_singleton]
        omega
      obtain ⟨other, rest, heq⟩ := List.exists_cons_of_ne_nil hrest
      rw [h.input_eq_cons hnext, heq]
  | focused _ haround =>
    obtain ⟨below, rest, rfl⟩ := List.exists_cons_of_ne_nil haround.ne_nil
    rw [ht, hs]

theorem outcome_eq (h : Matches terminals s z) :
    s.outcome terminals =
      ⟨z.tree.toTree, min z.position terminals.length, z.position == terminals.length,
        z.errors ++ z.trailing⟩ := by
  have htree := h.linked.toTree_spec.1.unique h.tree.unfolds
  rw [outcome, htree, h.position, h.errors, h.trailing_eq]

/-- Every run of the one is a run of the other. -/
theorem exists_reached (hr : Reached g terminals s) (h : Matches terminals s z) {n : Nat}
    {z' : ParseState} (hz : ParseState.Runs g n z z') :
    ∃ s', Reached g terminals s' ∧ Matches terminals s' z' := by
  induction hz generalizing s with
  | refl => exact ⟨s, hr, h⟩
  | step hstep _ ih =>
    rcases h.step? (g := g) with ⟨-, hnone⟩ | ⟨s', z', hs', hz', h'⟩
    · rw [hnone] at hstep
      exact absurd hstep (by simp)
    · obtain rfl := Option.some.inj (hstep.symm.trans hz')
      exact ih (hr.step hs') h'

end Matches

theorem Reached.exists_runs (h : Reached g terminals s) :
    ∃ n z, ParseState.Runs g n (.ofTerminals g terminals) z ∧ Matches terminals s z := by
  induction h with
  | start => exact ⟨0, _, .refl _, .start g terminals⟩
  | step _ hstep ih =>
    obtain ⟨n, z, hz, hm⟩ := ih
    rcases hm.step? (g := g) with ⟨hnone, -⟩ | ⟨s', z', hs', hz', h'⟩
    · rw [hnone] at hstep
      exact absurd hstep (by simp)
    · obtain rfl := Option.some.inj (hstep.symm.trans hs')
      exact ⟨n + 1, z', hz.trans (.step hz' (.refl z')), h'⟩

/-- When there is no step any more, the result is that of the parse with a focus. -/
theorem Reached.outcome_eq (h : Reached g terminals s) (hf : s.step? g terminals = none) :
    s.outcome terminals = parse g terminals := by
  obtain ⟨n, z, hz, hm⟩ := h.exists_runs
  have hlast : z.step? g = none := by
    rcases hm.step? (g := g) with ⟨-, hnone⟩ | ⟨s', z', hs', -, -⟩
    · exact hnone
    · rw [hf] at hs'
      exact absurd hs' (by simp)
  rw [hm.outcome_eq, parse, hz.run_eq, ParseState.run_of_final hlast]

/-- Such a state is reached. -/
theorem exists_reached_final (g : PreparedGrammar) (terminals : List Terminal) :
    ∃ s, Reached g terminals s ∧ s.step? g terminals = none := by
  obtain ⟨n, hz, hlast⟩ := ParseState.exists_runs_run (g := g) (.ofTerminals g terminals)
  obtain ⟨s, hr, hm⟩ := Matches.exists_reached .start (.start g terminals) hz
  refine ⟨s, hr, ?_⟩
  rcases hm.step? (g := g) with ⟨hnone, -⟩ | ⟨s', z', -, hz', -⟩
  · exact hnone
  · rw [hlast] at hz'
    exact absurd hz' (by simp)

end StackState
/-! ## Assembly -/

/-- The arena of a parse is one tree: every slot but the root's is listed once, by its parent,
which comes before it; the tree that is made is the one that the root unfolds to, and its nodes
are those of the slots. At the end it is the tree of the parse. -/
theorem arena_assembled {g : PreparedGrammar} {terminals : List Terminal} {s : StackState}
    (h : StackState.Reached g terminals s) :
    (∀ index, 0 < index → index < s.arena.size →
        ∃ parent < index, s.arena.parent? index = some parent ∧
          ∀ other slot, s.arena.slot? other = some slot →
            slot.children.count index = if other = parent then 1 else 0) ∧
      (∀ tree, s.arena.Unfolds 0 tree ↔ tree = s.arena.toTree) ∧
      s.arena.toTree.size = s.arena.size ∧
      s.arena.toTree.labels.Perm (s.arena.slots.toList.map Slot.label) ∧
      (s.step? g terminals = none → s.outcome terminals = parse g terminals) := by
  have hlinked := h.linked
  obtain ⟨hunfolds, hlabels⟩ := hlinked.toTree_spec
  refine ⟨fun index hpos hlt => ?_, fun tree => ⟨fun ht => ht.unique hunfolds, ?_⟩, ?_, hlabels,
    h.outcome_eq⟩
  · obtain ⟨parent, hp⟩ := hlinked.exists_parent hlt (Nat.ne_of_gt hpos)
    refine ⟨parent, Arena.lt_of_parent? hp, hp, fun other slot hs => ?_⟩
    rw [hlinked.count_children hs, hp]
    simp only [Option.some.injEq, eq_comm]
  · rintro rfl
    exact hunfolds
  · rw [Tree.size_eq, ← Tree.length_labels, hlabels.length_eq, List.length_map, Array.length_toList]
    rfl

theorem arena_assembled_reentrant :
    StackState.Reached (.ofGrammar .reentrant) [⟨"ID", some "x", 1⟩, ⟨"SEMI", none, 1⟩]
        (.after (.ofGrammar .reentrant) [⟨"ID", some "x", 1⟩, ⟨"SEMI", none, 1⟩] 3) ∧
      (StackState.after (.ofGrammar .reentrant)
        [⟨"ID", some "x", 1⟩, ⟨"SEMI", none, 1⟩] 3).arena.toTree.size = 5 := by
  have hreached := StackState.reached_after (.ofGrammar .reentrant)
    [⟨"ID", some "x", 1⟩, ⟨"SEMI", none, 1⟩] 3
  obtain ⟨-, -, hsize, -⟩ := arena_assembled hreached
  exact ⟨hreached, hsize.trans (by decide +kernel)⟩

end FrontEnd
