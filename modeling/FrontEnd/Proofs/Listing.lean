import FrontEnd.Proofs.Parse.Labels
import Std.Data.String.ToNat

/-! # Listings of trees

A listing shows the nodes in preorder, one a line, indented by their depth. Nothing is lost, as long
as no symbol holds a space: a line tells depth, symbol, line number and value apart, and the depths
tell which nodes are children of which.

* `Tree.renderAt`: the listing by recursion; `listPending_eq`: that is what the list of pending
  trees comes to.
* `entry_inj`: what a line of a listing tells.
* `outlineAt_inj`: the depths in preorder determine the shape.
* `render_faithful`: a listing determines its tree.
-/

namespace FrontEnd
set_option autoImplicit false

/-- Lists are told apart by the images of their items where items are. -/
theorem eq_of_map_eq {α β : Type} {f : α → β} {items others : List α}
    (hf : ∀ a ∈ items, ∀ b ∈ others, f a = f b → a = b) (h : items.map f = others.map f) :
    items = others := by
  induction items generalizing others with
  | nil => exact (List.map_eq_nil_iff.1 h.symm).symm
  | cons a items ih =>
    obtain ⟨b, others, rfl, hhead, htail⟩ := List.map_eq_cons_iff.1 h.symm
    obtain ⟨ha, hitems⟩ := List.forall_mem_cons.1 hf
    rw [ha b List.mem_cons_self hhead.symm,
      ih (fun c hc d hd => hitems c hc d (List.mem_cons_of_mem b hd)) htail.symm]

/-- Runs of characters of one kind are the same in front of rests that start with another kind. -/
theorem run_inj {p : Char → Bool} {u v rest rest' : List Char} (hu : ∀ c ∈ u, p c = true)
    (hv : ∀ c ∈ v, p c = true) (hr : ∀ c ∈ rest.head?, p c = false)
    (hr' : ∀ c ∈ rest'.head?, p c = false) (h : u ++ rest = v ++ rest') : u = v ∧ rest = rest' := by
  induction u generalizing v with
  | nil =>
    cases v with
    | nil => exact ⟨rfl, h⟩
    | cons d v =>
      have hd := hr d (by rw [← List.nil_append rest, h]; rfl)
      exact absurd ((hv d (by simp)).symm.trans hd) (by simp)
  | cons c u ih =>
    cases v with
    | nil =>
      have hc := hr' c (by rw [← List.nil_append rest', ← h]; rfl)
      exact absurd ((hu c (by simp)).symm.trans hc) (by simp)
    | cons d v =>
      rw [List.forall_mem_cons] at hu hv
      obtain ⟨rfl, htail⟩ := List.cons.inj h
      obtain ⟨rfl, hrest⟩ := ih hu.2 hv.2 htail
      exact ⟨rfl, hrest⟩

namespace Tree

/-! ## Preorder -/

mutual

def renderAt (depth : Nat) : Tree → List String
  | ⟨symbol, line, value, children⟩ =>
    entry depth ⟨symbol, line, value, []⟩ :: renderForest (depth + 1) children

def renderForest (depth : Nat) : List Tree → List String
  | [] => []
  | tree :: trees => tree.renderAt depth ++ renderForest depth trees

end

theorem renderAt_eq (depth : Nat) (tree : Tree) :
    tree.renderAt depth = tree.entry depth :: renderForest (depth + 1) tree.children := by
  cases tree
  rw [renderAt]
  rfl

theorem renderForest_eq (depth : Nat) (trees : List Tree) :
    renderForest depth trees = trees.flatMap (renderAt depth) := by
  induction trees with
  | nil => rfl
  | cons tree trees ih => rw [renderForest, ih, List.flatMap_cons]

/-- Children go in front of what is pending, so that each node is followed by what is below it. -/
theorem listPending_eq (listed : Array String) (pending : List (Tree × Nat)) :
    (listPending listed pending).toList =
      listed.toList ++ pending.flatMap fun item => item.1.renderAt item.2 := by
  fun_induction listPending listed pending with
  | case1 listed => simp
  | case2 listed tree depth pending ih =>
    simp only [List.map_subtype, List.unattach_attach] at ih
    rw [ih, Array.toList_push, List.flatMap_append, List.flatMap_map, List.flatMap_cons,
      renderAt_eq, renderForest_eq]
    simp

theorem render_eq (tree : Tree) : tree.render = tree.renderAt 0 := by
  rw [render, listPending_eq]
  simp

theorem countPending_eq (counted : Nat) (pending : List Tree) :
    countPending counted pending = counted + forestCount pending := by
  fun_induction countPending counted pending with
  | case1 counted => rfl
  | case2 counted tree pending ih =>
    rw [List.unattach_reverse, List.unattach_attach] at ih
    rw [ih, forestCount_append, forestCount_reverse, forestCount, count_eq]
    omega

theorem size_eq (tree : Tree) : tree.size = tree.count := by
  simp [size, countPending_eq, forestCount]

mutual

theorem length_renderAt (depth : Nat) : ∀ tree : Tree, (tree.renderAt depth).length = tree.count
  | ⟨symbol, line, value, children⟩ => by
    rw [renderAt, count, List.length_cons, length_renderForest (depth + 1) children, Nat.add_comm]

theorem length_renderForest (depth : Nat) : ∀ trees : List Tree,
    (renderForest depth trees).length = forestCount trees
  | [] => rfl
  | tree :: trees => by
    rw [renderForest, forestCount, List.length_append, length_renderAt depth tree,
      length_renderForest depth trees]

end

/-! ## Depths

The depths in preorder, with what the nodes carry: a node is followed by its children as long as the
depths stay above its own.
-/

mutual

def outlineAt (depth : Nat) : Tree → List (Nat × Terminal)
  | ⟨symbol, line, value, children⟩ =>
    (depth, ⟨symbol, value, line⟩) :: outlineForest (depth + 1) children

def outlineForest (depth : Nat) : List Tree → List (Nat × Terminal)
  | [] => []
  | tree :: trees => tree.outlineAt depth ++ outlineForest depth trees

end

/-- What follows a forest at a depth is not deeper than that. -/
def IsAbove (depth : Nat) (rest : List (Nat × Terminal)) : Prop :=
  ∀ item ∈ rest.head?, item.1 < depth

theorem isAbove_nil (depth : Nat) : IsAbove depth [] := fun item h => by simp at h

theorem IsAbove.forest {depth : Nat} {rest : List (Nat × Terminal)} (h : IsAbove depth rest)
    (trees : List Tree) : IsAbove (depth + 1) (outlineForest depth trees ++ rest) := by
  intro item hitem
  match trees with
  | [] => exact Nat.lt_succ_of_lt (h item (by simpa [outlineForest] using hitem))
  | ⟨symbol, line, value, children⟩ :: trees =>
    obtain rfl : (depth, ⟨symbol, value, line⟩) = item := by
      simpa [outlineForest, outlineAt] using hitem
    exact Nat.lt_succ_self depth

mutual

theorem outlineAt_inj (depth : Nat) {rest rest' : List (Nat × Terminal)} : ∀ tree other : Tree,
    IsAbove (depth + 1) rest → IsAbove (depth + 1) rest' →
      tree.outlineAt depth ++ rest = other.outlineAt depth ++ rest' → tree = other ∧ rest = rest'
  | ⟨symbol, line, value, children⟩, ⟨symbol', line', value', children'⟩, hr, hr', h => by
    rw [outlineAt, outlineAt, List.cons_append, List.cons_append] at h
    obtain ⟨hhead, htail⟩ := List.cons.inj h
    obtain ⟨-, hlabel⟩ := Prod.mk.inj hhead
    obtain ⟨rfl, rfl, rfl⟩ := Terminal.mk.inj hlabel
    obtain ⟨rfl, hrest⟩ := outlineForest_inj (depth + 1) children children' hr hr' htail
    exact ⟨rfl, hrest⟩

theorem outlineForest_inj (depth : Nat) {rest rest' : List (Nat × Terminal)} :
    ∀ trees others : List Tree, IsAbove depth rest → IsAbove depth rest' →
      outlineForest depth trees ++ rest = outlineForest depth others ++ rest' →
        trees = others ∧ rest = rest'
  | [], [], _, _, h => ⟨rfl, h⟩
  | [], ⟨symbol, line, value, children⟩ :: others, hr, _, h => by
    -- The other forest has a node at this depth where the first one is over.
    have := hr (depth, ⟨symbol, value, line⟩) (by
      rw [outlineForest, List.nil_append] at h
      rw [h, outlineForest, outlineAt]
      rfl)
    exact absurd this (Nat.lt_irrefl depth)
  | ⟨symbol, line, value, children⟩ :: trees, [], _, hr', h => by
    have := hr' (depth, ⟨symbol, value, line⟩) (by
      rw [outlineForest, outlineForest, List.nil_append] at h
      rw [← h, outlineAt]
      rfl)
    exact absurd this (Nat.lt_irrefl depth)
  | tree :: trees, other :: others, hr, hr', h => by
    rw [outlineForest, outlineForest, List.append_assoc, List.append_assoc] at h
    obtain ⟨rfl, hlater⟩ := outlineAt_inj depth tree other (hr.forest trees) (hr'.forest others) h
    obtain ⟨rfl, hrest⟩ := outlineForest_inj depth trees others hr hr' hlater
    exact ⟨rfl, hrest⟩

end

/-! ## Lines -/

theorem toList_pushn (text : String) (c : Char) (n : Nat) :
    (text.pushn c n).toList = text.toList ++ List.replicate n c := by
  induction n with
  | zero => simp [String.pushn, Nat.repeat]
  | succ n ih =>
    have hpush : text.pushn c (n + 1) = (text.pushn c n).push c := rfl
    rw [hpush, String.toList_push, ih, List.replicate_succ', List.append_assoc]

/-- Two texts that agree are cut alike at the first mark. -/
theorem cut_inj {mark : Char} {u u' v v' : List Char} (hu : mark ∉ u) (hu' : mark ∉ u')
    (h : u ++ mark :: v = u' ++ mark :: v') : u = u' ∧ v = v' := by
  rcases List.append_eq_append_iff.1 h with ⟨between, rfl, hv⟩ | ⟨between, rfl, hv⟩
  · cases between with
    | nil => simpa using hv
    | cons c between =>
      obtain ⟨rfl, -⟩ := List.cons.inj hv
      simp at hu'
  · cases between with
    | nil => simpa [eq_comm] using hv
    | cons c between =>
      obtain ⟨rfl, -⟩ := List.cons.inj hv
      simp at hu

theorem indent_inj {m n : Nat} {s t : List Char} (hs : s.head? ≠ some ' ')
    (ht : t.head? ≠ some ' ') (h : List.replicate m ' ' ++ s = List.replicate n ' ' ++ t) :
    m = n ∧ s = t := by
  induction m generalizing n with
  | zero =>
    cases n with
    | zero => exact ⟨rfl, h⟩
    | succ n =>
      rw [List.replicate_zero, List.nil_append] at h
      rw [h] at hs
      simp [List.replicate_succ] at hs
  | succ m ih =>
    cases n with
    | zero =>
      rw [List.replicate_zero, List.nil_append] at h
      rw [← h] at ht
      simp [List.replicate_succ] at ht
    | succ n =>
      rw [List.replicate_succ, List.replicate_succ, List.cons_append, List.cons_append] at h
      obtain ⟨rfl, rfl⟩ := ih (List.cons.inj h).2
      exact ⟨rfl, rfl⟩

/-- Symbol and line number, as a label starts. -/
def heading (symbol : String) (line : Nat) : List Char :=
  symbol.toList ++ '(' :: (Nat.toDigits 10 line ++ [')'])

/-- A label ends in the value, if there is one. -/
def ending : Option String → List Char
  | some value => ' ' :: value.toList
  | none => []

theorem toList_label (tree : Tree) :
    tree.label.toList = heading tree.symbol tree.line ++ ending tree.value := by
  unfold label heading ending
  cases tree.value with
  | some value => simp
  | none => simp

theorem isDigit_of_mem_digits {c : Char} {n : Nat} (h : c ∈ Nat.toDigits 10 n) : c.isDigit = true :=
  Nat.isDigit_of_mem_toDigits (by decide) (by decide) h

theorem not_mem_digits {c : Char} (hc : c.isDigit = false) (line : Nat) :
    c ∉ Nat.toDigits 10 line := fun h =>
  Bool.noConfusion (hc.symm.trans (isDigit_of_mem_digits h))

theorem digits_inj {m n : Nat} (h : Nat.toDigits 10 m = Nat.toDigits 10 n) : m = n :=
  Nat.repr_injective (String.toList_inj.1 (by simpa using h))

theorem space_not_mem_heading {symbol : String} (hs : ' ' ∉ symbol.toList) (line : Nat) :
    ' ' ∉ heading symbol line := by
  have := not_mem_digits (c := ' ') (by decide) line
  simp [heading, hs, this]

theorem head?_heading_ne {symbol : String} (hs : ' ' ∉ symbol.toList) (line : Nat)
    (rest : List Char) : (heading symbol line ++ rest).head? ≠ some ' ' := by
  intro h
  rw [heading, List.append_assoc] at h
  cases hsymbol : symbol.toList with
  | nil => simp [hsymbol] at h
  | cons c name =>
    obtain rfl : c = ' ' := by simpa [hsymbol] using h
    simp [hsymbol] at hs

/-- The last opening parenthesis is the one before the line number. -/
theorem heading_inj {symbol symbol' : String} {line line' : Nat}
    (h : heading symbol line = heading symbol' line') : symbol = symbol' ∧ line = line' := by
  have hopen : ∀ n, '(' ∉ (Nat.toDigits 10 n ++ [')']).reverse := fun n => by
    simp [not_mem_digits (c := '(') (by decide) n]
  have hreverse := congrArg List.reverse h
  rw [heading, heading, List.reverse_append, List.reverse_append, List.reverse_cons,
    List.reverse_cons, List.append_assoc, List.append_assoc] at hreverse
  obtain ⟨hline, hsymbol⟩ := cut_inj (hopen line) (hopen line') hreverse
  have hdigits := (List.append_left_inj [')']).1 (List.reverse_inj.1 hline)
  exact ⟨String.toList_inj.1 (List.reverse_inj.1 hsymbol), digits_inj hdigits⟩

theorem ending_inj {s t : List Char} (hs : ' ' ∉ s) (ht : ' ' ∉ t) {value value' : Option String}
    (h : s ++ ending value = t ++ ending value') : s = t ∧ value = value' := by
  match value, value' with
  | none, none => exact ⟨by simpa [ending] using h, rfl⟩
  | some value, some value' =>
    obtain ⟨hst, hvalue⟩ := cut_inj hs ht h
    exact ⟨hst, congrArg some (String.toList_inj.1 hvalue)⟩
  | none, some value =>
    rw [ending, ending, List.append_nil] at h
    simp [h] at hs
  | some value, none =>
    rw [ending, ending, List.append_nil] at h
    simp [← h] at ht

/-- A line of a listing tells the depth and all that the node carries. -/
theorem entry_inj {depth depth' : Nat} {tree other : Tree} (ht : ' ' ∉ tree.symbol.toList)
    (ho : ' ' ∉ other.symbol.toList) (h : tree.entry depth = other.entry depth') :
    depth = depth' ∧ tree.symbol = other.symbol ∧ tree.line = other.line ∧
      tree.value = other.value := by
  have hchars := congrArg String.toList h
  rw [entry, entry, String.toList_append, String.toList_append, toList_pushn, toList_pushn,
    String.toList_empty, List.nil_append, List.nil_append, toList_label, toList_label] at hchars
  obtain ⟨hindent, hlabel⟩ := indent_inj (head?_heading_ne ht tree.line _)
    (head?_heading_ne ho other.line _) hchars
  obtain ⟨hheading, hvalue⟩ := ending_inj (space_not_mem_heading ht tree.line)
    (space_not_mem_heading ho other.line) hlabel
  obtain ⟨hsymbol, hline⟩ := heading_inj hheading
  exact ⟨by omega, hsymbol, hline, hvalue⟩

/-! ## Whole listings -/

/-- The line of a listing for what a node carries at a depth. -/
def lineOf (item : Nat × Terminal) : String :=
  entry item.1 ⟨item.2.symbol, item.2.line, item.2.value, []⟩

mutual

theorem renderAt_eq_map (depth : Nat) : ∀ tree : Tree,
    tree.renderAt depth = (tree.outlineAt depth).map lineOf
  | ⟨symbol, line, value, children⟩ => by
    rw [renderAt, outlineAt, List.map_cons, renderForest_eq_map (depth + 1) children]
    rfl

theorem renderForest_eq_map (depth : Nat) : ∀ trees : List Tree,
    renderForest depth trees = (outlineForest depth trees).map lineOf
  | [] => rfl
  | tree :: trees => by
    rw [renderForest, outlineForest, List.map_append, renderAt_eq_map depth tree,
      renderForest_eq_map depth trees]

end

mutual

theorem map_outlineAt (depth : Nat) : ∀ tree : Tree,
    (tree.outlineAt depth).map (·.2) = tree.labels
  | ⟨symbol, line, value, children⟩ => by
    rw [outlineAt, labels, List.map_cons, map_outlineForest (depth + 1) children]

theorem map_outlineForest (depth : Nat) : ∀ trees : List Tree,
    (outlineForest depth trees).map (·.2) = forestLabels trees
  | [] => rfl
  | tree :: trees => by
    rw [outlineForest, forestLabels, List.map_append, map_outlineAt depth tree,
      map_outlineForest depth trees]

end

/-- No symbol holds a space. -/
def HasPlainSymbols (tree : Tree) : Prop := ∀ label ∈ tree.labels, ' ' ∉ label.symbol.toList

instance (tree : Tree) : Decidable tree.HasPlainSymbols :=
  inferInstanceAs (Decidable (∀ label ∈ tree.labels, ' ' ∉ label.symbol.toList))

theorem HasPlainSymbols.of_mem_outlineAt {tree : Tree} (h : tree.HasPlainSymbols) {depth : Nat}
    {item : Nat × Terminal} (hi : item ∈ tree.outlineAt depth) : ' ' ∉ item.2.symbol.toList :=
  h item.2 (map_outlineAt depth tree ▸ List.mem_map_of_mem hi)

theorem lineOf_inj {item other : Nat × Terminal} (hi : ' ' ∉ item.2.symbol.toList)
    (ho : ' ' ∉ other.2.symbol.toList) (h : lineOf item = lineOf other) : item = other := by
  obtain ⟨depth, symbol, value, line⟩ := item
  obtain ⟨depth', symbol', value', line'⟩ := other
  obtain ⟨rfl, rfl, rfl, rfl⟩ := entry_inj hi ho h
  rfl

theorem eq_of_map_lineOf_eq {items others : List (Nat × Terminal)}
    (hi : ∀ item ∈ items, ' ' ∉ item.2.symbol.toList)
    (ho : ∀ item ∈ others, ' ' ∉ item.2.symbol.toList)
    (h : items.map lineOf = others.map lineOf) : items = others :=
  eq_of_map_eq (fun item hm other hm' => lineOf_inj (hi item hm) (ho other hm')) h

/-- A listing is the preorder of its tree, a line for each node, and determines the tree. -/
theorem render_faithful (tree : Tree) :
    tree.render = tree.renderAt 0 ∧ tree.render.length = tree.size ∧
      ∀ other : Tree, tree.HasPlainSymbols → other.HasPlainSymbols →
        tree.render = other.render → tree = other := by
  refine ⟨render_eq tree, ?_, fun other ht ho h => ?_⟩
  · rw [render_eq, size_eq]
    exact length_renderAt 0 tree
  · rw [render_eq, render_eq, renderAt_eq_map, renderAt_eq_map] at h
    have houtline := eq_of_map_lineOf_eq (fun _ hi => ht.of_mem_outlineAt hi)
      (fun _ hi => ho.of_mem_outlineAt hi) h
    exact (outlineAt_inj 0 tree other (isAbove_nil 1) (isAbove_nil 1)
      (congrArg (· ++ []) houtline)).1

/-- A declaration and an empty rest of the program. -/
def listed : Tree :=
  ⟨"Program", 1, none,
    [⟨"VariableDeclaration", 1, none, [bare "TYPE" 1, ⟨"ID", 1, some "a (1)", []⟩]⟩,
      bare "Program" 2]⟩

theorem render_faithful_listed :
    listed.render = ["Program(1)", "    VariableDeclaration(1)", "        TYPE(1)",
      "        ID(1) a (1)", "    Program(2)"] ∧
    listed.render.length = listed.size ∧ listed.HasPlainSymbols ∧
    (listed.render = listed.render → listed = listed) :=
  have hplain : listed.HasPlainSymbols := by decide
  have h := render_faithful listed
  ⟨h.1.trans rfl, h.2.1, hplain, h.2.2 listed hplain hplain⟩

/-- A symbol with a space can be taken for a symbol with a value. -/
example : (bare "A(1) B" 2).render = render ⟨"A", 1, some "B(2)", []⟩ := by
  rw [render_eq, render_eq]
  rfl

end Tree
end FrontEnd
