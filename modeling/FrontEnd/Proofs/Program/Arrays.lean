import FrontEnd.Proofs.Lowering.Sizes
import FrontEnd.Proofs.Program.Declarations
import FrontEnd.Proofs.Program.ExprOfDerivation
import FrontEnd.Proofs.Token.Numerals

/-! # Array declarations in a derivation

The leaves of a declaration are a type name, the declared name, the sizes in brackets, and possibly
an initializer. The declaration that is read off the tree has these names and sizes.

* `SpellsArray`: what the leaves of a declaration look like; they determine names and sizes.
* `Terminal.IsWritten`: what the terminals of a source text carry.
* `Tree.readsSizes_of_isWritten`: the suffixes of a derivation.
* `Tree.exists_spellsArray`: the declaration of a derivation.
* `Declaration.type_eq`, `Declaration.sizeMessages_eq`: its type and the complaints about its sizes.
-/

namespace FrontEnd
set_option autoImplicit false

open Grammar (expanded)

/-! ## Spellings -/

/-- What the parser sees of a size in brackets. -/
def Numeral.suffix (n : Numeral) : List (Symbol × Option String) :=
  [("LB", none), ("INT", some n.text), ("RB", none)]

/-- Nothing but an initializer. -/
def EndsSuffixes (rest : List (Symbol × Option String)) : Prop :=
  rest = [] ∨ rest.head? = some ("ASSIGNOP", none)

/-- The terminals are a type name, an identifier, the sizes in brackets one after the other, and
possibly an initializer. -/
def SpellsArray (typeName name : String) (sizes : List Numeral) (ts : List Terminal) : Prop :=
  ∃ rest, ts.map (fun t => (t.symbol, t.value)) =
      ("TYPE", some typeName) :: ("ID", some name) :: (sizes.flatMap Numeral.suffix ++ rest) ∧
    EndsSuffixes rest

theorem EndsSuffixes.ne_suffix {rest : List (Symbol × Option String)} (h : EndsSuffixes rest)
    (n : Numeral) (more : List (Symbol × Option String)) : rest ≠ n.suffix ++ more := by
  rintro rfl
  rcases h with h | h
  · exact absurd h (by simp [Numeral.suffix])
  · exact absurd h (by simp [Numeral.suffix])

theorem texts_eq_of_flatMap_suffix {sizes others : List Numeral}
    {rest rest' : List (Symbol × Option String)} (hr : EndsSuffixes rest) (hr' : EndsSuffixes rest')
    (h : sizes.flatMap Numeral.suffix ++ rest = others.flatMap Numeral.suffix ++ rest') :
    sizes.map Numeral.text = others.map Numeral.text := by
  induction sizes generalizing others with
  | nil =>
    cases others with
    | nil => rfl
    | cons n others =>
      rw [List.flatMap_cons, List.append_assoc] at h
      exact absurd h (hr.ne_suffix n _)
  | cons n sizes ih =>
    rw [List.flatMap_cons, List.append_assoc] at h
    cases others with
    | nil => exact absurd h.symm (hr'.ne_suffix n _)
    | cons m others =>
      rw [List.flatMap_cons, List.append_assoc] at h
      obtain ⟨hsuffix, hrest⟩ := List.append_inj h rfl
      have htext : n.text = m.text := by simpa [Numeral.suffix] using hsuffix
      rw [List.map_cons, List.map_cons, htext, ih hrest]

/-- The terminals determine the names and how the sizes are written. -/
theorem SpellsArray.unique {typeName typeName' name name' : String} {sizes others : List Numeral}
    {ts : List Terminal} (h : SpellsArray typeName name sizes ts)
    (h' : SpellsArray typeName' name' others ts) :
    typeName = typeName' ∧ name = name' ∧ sizes.map Numeral.text = others.map Numeral.text := by
  obtain ⟨rest, he, hr⟩ := h
  obtain ⟨rest', he', hr'⟩ := h'
  rw [he] at he'
  simp only [List.cons.injEq, Prod.mk.injEq, Option.some.injEq, true_and] at he'
  exact ⟨he'.1, he'.2.1, texts_eq_of_flatMap_suffix hr hr' he'.2.2⟩

/-! ## Terminals -/

/-- Type names, identifiers and integers carry their texts, brackets and assignments nothing. -/
structure Terminal.IsWritten (t : Terminal) : Prop where
  name : t.symbol = "TYPE" ∨ t.symbol = "ID" → ∃ text, t.value = some text
  integer : t.symbol = "INT" → ∃ n : Numeral, t.value = some n.text
  silent : t.symbol ∈ ["LB", "RB", "ASSIGNOP"] → t.value = none

theorem Lexeme.value_eq_none {l : Lexeme} (h : l.category.name ∈ ["LB", "RB", "ASSIGNOP"]) :
    l.value = none := by
  unfold value
  cases hc : l.category <;> rw [hc] at h <;> first | rfl | exact absurd h (by decide)

theorem isWritten_of_mem_tokenize {source : String} {token : Token}
    (h : token ∈ (tokenize source).1) : (Terminal.ofToken token).IsWritten := by
  obtain ⟨id, line, l, s, rfl, hfirst⟩ := exists_first?_of_mem_tokenize h
  have hl := Lexeme.isRegular_of_first? hfirst
  refine ⟨fun hs => ?_, fun hs => ?_, fun hs => ?_⟩
  · have hc : l.category = .typeName ∨ l.category = .identifier :=
      hs.imp (hl.category_eq (by simp)) (hl.category_eq (by simp))
    refine ⟨String.ofList l.text, ?_⟩
    rcases hc with hc | hc <;> simp [Terminal.ofToken, Token.ofLexeme, Lexeme.value, hc]
  · have hc : l.category = .int := hl.category_eq (by simp) hs
    obtain ⟨n, hn⟩ := exists_numeral_of_mem_integers (Lexeme.mem_integers_of_first? hfirst hc)
    refine ⟨n, ?_⟩
    simp [Terminal.ofToken, Token.ofLexeme, Lexeme.value, hc, Numeral.text, hn]
  · exact Lexeme.value_eq_none hs

/-! ## Derivations -/

namespace Tree

/-- A child spells a part of what its parent spells. -/
theorem IsDerivation.infix_child {g : Grammar} {tree child : Tree} (h : tree.IsDerivation g)
    (hc : child ∈ tree.children) : child.leaves g <:+: tree.leaves g := by
  cases h with
  | leaf => exact absurd hc List.not_mem_nil
  | @node rule line value children hr hs hd =>
    have hn : g.isNonterminal rule.left = true := List.any_eq_true.2 ⟨rule, hr, by simp⟩
    obtain ⟨before, after, he⟩ := List.append_of_mem hc
    rw [leaves_of_not_terminal (isTerminal_of_isNonterminal hn), show children = _ from he,
      forestLeaves_append, forestLeaves, ← List.append_assoc]
    exact List.infix_append ..

/-- The leaves carry what they should. -/
structure IsWritten (tree : Tree) : Prop where
  derivation : tree.IsDerivation expanded
  written : ∀ t ∈ tree.leaves expanded, t.IsWritten

namespace IsWritten
variable {tree : Tree}

theorem child {child : Tree} (h : tree.IsWritten) (hc : child ∈ tree.children) :
    child.IsWritten :=
  ⟨h.derivation.child hc, fun t ht => h.written t ((h.derivation.infix_child hc).subset ht)⟩

theorem exists_leaf (h : tree.IsWritten) {symbol : Symbol} (hs : tree.symbol = symbol)
    (ht : expanded.isTerminal symbol = true) :
    ∃ line value, tree = ⟨symbol, line, value, []⟩ ∧ Terminal.IsWritten ⟨symbol, value, line⟩ := by
  obtain ⟨line, value, rfl⟩ := h.derivation.exists_terminal hs ht
  refine ⟨line, value, rfl, h.written _ ?_⟩
  rw [leaves_terminal ht]
  exact List.mem_singleton_self _

/-- A leaf that carries nothing. -/
theorem exists_silent (h : tree.IsWritten) {symbol : Symbol} (hs : tree.symbol = symbol)
    (ht : expanded.isTerminal symbol = true) (hm : symbol ∈ ["LB", "RB", "ASSIGNOP"]) :
    ∃ line, tree = ⟨symbol, line, none, []⟩ := by
  obtain ⟨line, value, rfl, hw⟩ := h.exists_leaf hs ht
  obtain rfl : value = none := hw.silent hm
  exact ⟨line, rfl⟩

/-- Every node is written as a part of the tree. -/
theorem of_mem_nodes {node : Tree} (h : tree.IsWritten) (hn : node ∈ tree.nodes) :
    node.IsWritten ∧ node.leaves expanded <:+: tree.leaves expanded := by
  refine Tree.of_mem_nodes (p := fun part =>
    part.IsWritten ∧ part.leaves expanded <:+: tree.leaves expanded) ?_ ⟨h, List.infix_rfl⟩ hn
  rintro part child ⟨hpart, hin⟩ hc
  exact ⟨hpart.child hc, (hpart.derivation.infix_child hc).trans hin⟩

/-- Assignments start with a name. -/
theorem startsWith_of_spellsArray (h : tree.IsWritten) (hs : tree.symbol = "VariableDeclaration")
    {typeName name : String} {sizes : List Numeral}
    (hspells : SpellsArray typeName name sizes (tree.leaves expanded)) :
    tree.startsWith "TYPE" = true := by
  have hn : expanded.isNonterminal "VariableDeclaration" = true := by decide
  have hp := h.derivation.production_mem (hs ▸ hn)
  obtain ⟨symbol, line, value, children⟩ := tree
  obtain rfl : symbol = "VariableDeclaration" := hs
  have hd : ∀ child ∈ children, child.IsWritten := fun _ => h.child
  have hcases : children.map (·.symbol) ∈ [["TYPE", "ID", "Init"], ["ID", "Init"]] := hp
  simp only [List.mem_cons, List.not_mem_nil, or_false, List.map_eq_cons_iff] at hcases
  obtain ⟨type, _, rfl, htype, -⟩ | ⟨first, _, rfl, hfirst, -⟩ := hcases
  · simp [startsWith, child?, hasSymbol, htype]
  · obtain ⟨l, v, rfl, -⟩ := (hd first (by simp)).exists_leaf hfirst (by decide)
    obtain ⟨rest, he, -⟩ := hspells
    rw [leaves_node hn] at he
    simp (disch := decide) only [forestLeaves, leaves_terminal] at he
    simp at he

end IsWritten

/-- The sizes in an `Init` node are those that its leaves spell. -/
def ReadsSizes (init : Tree) : Prop :=
  ∃ (sizes : List Numeral) (rest : List (Symbol × Option String)),
    (init.leaves expanded).map (fun t => (t.symbol, t.value)) =
        sizes.flatMap Numeral.suffix ++ rest ∧
      EndsSuffixes rest ∧
      (Declaration.ofInit init).1.map Suffix.literal = sizes.map Numeral.text

theorem readsSizes_init {line : Nat} {value : Option String} {children : List Tree}
    (h : IsWritten ⟨"Init", line, value, children⟩)
    (ih : ∀ child ∈ children, child.symbol = "Init" → child.ReadsSizes) :
    ReadsSizes ⟨"Init", line, value, children⟩ := by
  have hn : expanded.isNonterminal "Init" = true := by decide
  have hd : ∀ child ∈ children, child.IsWritten := fun _ => h.child
  have hcases : children.map (·.symbol) ∈
      [["ASSIGNOP", "Expression"], ["LB", "INT", "RB", "Init"], []] :=
    h.derivation.production_mem hn
  unfold ReadsSizes
  rw [leaves_node hn]
  simp only [List.mem_cons, List.not_mem_nil, or_false, List.map_eq_cons_iff,
    List.map_eq_nil_iff] at hcases
  obtain ⟨assign, _, rfl, ha, tree, _, rfl, -, rfl⟩ |
    ⟨left, _, rfl, hl, size, _, rfl, hsize, right, _, rfl, hr, init, _, rfl, hi, rfl⟩ |
    rfl := hcases
  · obtain ⟨l, rfl⟩ := (hd assign (by simp)).exists_silent ha (by decide) (by simp)
    refine ⟨[], _, (List.nil_append _).symm, Or.inr ?_, rfl⟩
    simp (disch := decide) only [forestLeaves, leaves_terminal]
    rfl
  · obtain ⟨l, rfl⟩ := (hd left (by simp)).exists_silent hl (by decide) (by simp)
    obtain ⟨l', v, rfl, hw⟩ := (hd size (by simp)).exists_leaf hsize (by decide)
    obtain ⟨l'', rfl⟩ := (hd right (by simp)).exists_silent hr (by decide) (by simp)
    obtain ⟨n, hn⟩ := hw.integer rfl
    obtain rfl : v = some n.text := hn
    obtain ⟨sizes, rest, hleaves, hrest, htexts⟩ := ih init (by simp) hi
    refine ⟨n :: sizes, rest, ?_, hrest, ?_⟩
    · simp (disch := decide) only [forestLeaves, leaves_terminal, List.append_nil]
      simp [hleaves, Numeral.suffix]
    · simp [Declaration.ofInit, Declaration.ofInitAt, startsWith, child?, childValue?, hasSymbol,
        htexts]
  · exact ⟨[], [], rfl, Or.inl rfl, rfl⟩

theorem readsSizes_of_isWritten (init : Tree) (h : init.IsWritten) (hs : init.symbol = "Init") :
    init.ReadsSizes := by
  have ih : ∀ child ∈ init.children, child.symbol = "Init" → child.ReadsSizes := fun child hc =>
    readsSizes_of_isWritten child (h.child hc)
  obtain ⟨symbol, line, value, children⟩ := init
  obtain rfl : symbol = "Init" := hs
  exact readsSizes_init h ih
termination_by sizeOf init
decreasing_by exact sizeOf_lt_of_mem hc

/-- A declaration is read with the names and the sizes that its leaves spell. -/
theorem exists_spellsArray (tree : Tree) (h : tree.IsWritten)
    (hs : tree.symbol = "VariableDeclaration") (ht : tree.startsWith "TYPE" = true) :
    ∃ (sizes : List Numeral) (declaration : Declaration),
      SpellsArray declaration.typeName declaration.name sizes (tree.leaves expanded) ∧
        tree.declarator? = some (.declare declaration) ∧
        declaration.suffixes.map Suffix.literal = sizes.map Numeral.text := by
  have hn : expanded.isNonterminal "VariableDeclaration" = true := by decide
  have hp := h.derivation.production_mem (hs ▸ hn)
  obtain ⟨symbol, line, value, children⟩ := tree
  obtain rfl : symbol = "VariableDeclaration" := hs
  have hd : ∀ child ∈ children, child.IsWritten := fun _ => h.child
  have hcases : children.map (·.symbol) ∈ [["TYPE", "ID", "Init"], ["ID", "Init"]] := hp
  rw [leaves_node hn]
  simp only [List.mem_cons, List.not_mem_nil, or_false, List.map_eq_cons_iff,
    List.map_eq_nil_iff] at hcases
  obtain ⟨type, _, rfl, htype, name, _, rfl, hname, init, _, rfl, hi, rfl⟩ |
    ⟨name, _, rfl, hname, init, _, rfl, hi, rfl⟩ := hcases
  · obtain ⟨l, v, rfl, hw⟩ := (hd type (by simp)).exists_leaf htype (by decide)
    obtain ⟨l', v', rfl, hw'⟩ := (hd name (by simp)).exists_leaf hname (by decide)
    obtain ⟨typeName, hv⟩ := hw.name (Or.inl rfl)
    obtain ⟨text, hv'⟩ := hw'.name (Or.inr rfl)
    obtain rfl : v = some typeName := hv
    obtain rfl : v' = some text := hv'
    obtain ⟨sizes, rest, hleaves, hrest, htexts⟩ :=
      readsSizes_of_isWritten init (hd init (by simp)) hi
    refine ⟨sizes, ⟨line, typeName, text, (Declaration.ofInit init).1,
      (Declaration.ofInit init).2⟩, ⟨rest, ?_, hrest⟩, ?_, htexts⟩
    · simp (disch := decide) only [forestLeaves, leaves_terminal, List.append_nil]
      simp [hleaves]
    · simp [declarator?, matched?, child?, hasSymbol, Declaration.ofInitAt]
  · simp [startsWith, child?, hasSymbol, hname] at ht

end Tree

/-! ## Types and complaints -/

namespace Declaration
variable {declaration : Declaration} {sizes : List Numeral}

/-- One layer for each size, the first one outermost; a size that is none is zero. -/
theorem type_eq (h : declaration.suffixes.map Suffix.literal = sizes.map Numeral.text) :
    declaration.type = sizes.foldr (fun n element => .array (n.size?.getD 0) element)
      (.primitive declaration.typeName) := by
  have hsizes : Suffix.sizes declaration.suffixes = sizes.map fun n => n.size?.getD 0 := by
    have hread := congrArg (List.map fun literal => (literalValue? literal).getD 0) h
    simpa [Function.comp_def, Numeral.literalValue?_text, Suffix.sizes] using hread
  rw [type, hsizes, Ty.arrayOf, List.foldr_map]

/-- One complaint for each size that is none. -/
theorem sizeMessages_eq (h : declaration.suffixes.map Suffix.literal = sizes.map Numeral.text) :
    (Suffix.errors declaration.name declaration.suffixes).map (·.fault.message) =
      (sizes.filter (·.size?.isNone)).map fun n =>
        s!"invalid array size '{n.text}' for '{declaration.name}'" := by
  have hliterals : (declaration.suffixes.filter fun suffix =>
        (literalValue? suffix.literal).isNone).map Suffix.literal =
      (sizes.filter (·.size?.isNone)).map Numeral.text := by
    have hread := congrArg (List.filter fun literal => (literalValue? literal).isNone) h
    rw [List.filter_map, List.filter_map] at hread
    simpa [Function.comp_def, Numeral.literalValue?_text] using hread
  have hmessages := congrArg (List.map fun literal =>
    (SemanticFault.invalidSize literal declaration.name).message) hliterals
  rw [List.map_map, List.map_map] at hmessages
  rw [Suffix.errors, List.map_map]
  exact hmessages

end Declaration
end FrontEnd
