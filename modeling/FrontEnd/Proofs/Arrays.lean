import FrontEnd.Proofs.Declarations
import FrontEnd.Proofs.Parse.Soundness
import FrontEnd.Proofs.Program.Arrays

/-! # The sizes of arrays are exact

Integers are read with their values, whatever their form and length, and a declared array has the
sizes that are written in its brackets, the first one outermost.

* `Compilation.FirstDeclares`: the first declaration of a name, as it is written.
* `array_sizes_exact`: the values of the integers, and the types of declared arrays.
-/

namespace FrontEnd
set_option autoImplicit false

open Grammar (expanded)

/-! ## Source texts without syntax errors -/

section
variable {source : String} (herrors : (compile .builtin source).parsed.errors = [])
include herrors

/-- The parse tree spells the tokens. -/
theorem isWritten_parsed :
    (compile .builtin source).parsed.tree.IsWritten ∧
      (compile .builtin source).parsed.tree.leaves expanded =
        (tokenize source).1.map .ofToken := by
  obtain ⟨hd, -, hl⟩ := isDerivation_builtin herrors
  refine ⟨⟨hd, fun t ht => ?_⟩, hl⟩
  have ht' : t ∈ (tokenize source).1.map .ofToken := hl ▸ ht
  obtain ⟨token, hm, rfl⟩ := List.mem_map.1 ht'
  exact isWritten_of_mem_tokenize hm

/-- A declaration with a type is written with a name, sizes and possibly an initializer. -/
theorem exists_spellsArray_of_mem_nodes {node : Tree}
    (hn : node ∈ (compile .builtin source).parsed.tree.nodes)
    (hs : node.symbol = "VariableDeclaration") (ht : node.startsWith "TYPE" = true) :
    node.leaves expanded <:+: (tokenize source).1.map .ofToken ∧
      ∃ typeName name sizes, SpellsArray typeName name sizes (node.leaves expanded) := by
  obtain ⟨hw, hl⟩ := isWritten_parsed herrors
  obtain ⟨hnode, hin⟩ := hw.of_mem_nodes hn
  obtain ⟨sizes, declaration, hspells, -⟩ := node.exists_spellsArray hnode hs ht
  exact ⟨hl ▸ hin, _, _, sizes, hspells⟩

end

/-! ## First declarations -/

/-- The first declaration of `name` is written with this type and these sizes. -/
def Compilation.FirstDeclares (c : Compilation) (typeName name : String)
    (sizes : List Numeral) : Prop :=
  ∃ before node after, c.parsed.tree.nodes = before ++ node :: after ∧
    node.symbol = "VariableDeclaration" ∧
    SpellsArray typeName name sizes (node.leaves expanded) ∧
    ∀ earlier ∈ before, ∀ d, earlier.declared? = some d → d.name ≠ name

theorem exists_declarators_of_firstDeclares {source : String}
    (herrors : (compile .builtin source).parsed.errors = []) {typeName name : String}
    {sizes : List Numeral} (h : (compile .builtin source).FirstDeclares typeName name sizes) :
    ∃ before declaration after, (compile .builtin source).parsed.tree.declarators =
        before ++ .declare declaration :: after ∧
      declaration.typeName = typeName ∧ declaration.name = name ∧
      declaration.suffixes.map Suffix.literal = sizes.map Numeral.text ∧
      ∀ d ∈ before, d.declared.name ≠ name := by
  obtain ⟨before, node, after, hnodes, hs, hspells, hfirst⟩ := h
  have hn : node ∈ (compile .builtin source).parsed.tree.nodes := by simp [hnodes]
  have hw := ((isWritten_parsed herrors).1.of_mem_nodes hn).1
  obtain ⟨others, declaration, hspells', hread, htexts⟩ :=
    node.exists_spellsArray hw hs (hw.startsWith_of_spellsArray hs hspells)
  obtain ⟨rfl, rfl, hsame⟩ := hspells'.unique hspells
  refine ⟨before.filterMap Tree.declarator?, declaration, after.filterMap Tree.declarator?, ?_,
    rfl, rfl, htexts.trans hsame, fun d hd => ?_⟩
  · rw [Tree.declarators, hnodes, List.filterMap_append, List.filterMap_cons_some hread]
  · obtain ⟨earlier, he, hdeclarator⟩ := List.mem_filterMap.1 hd
    refine hfirst earlier he d.declared ?_
    rw [earlier.declared?_eq, hdeclarator]
    rfl

/-- For every integer token of every source text, in each of the three bases, reading it gives its
value if it has digits and its value is below the sixty-fourth power of two, and nothing otherwise.
In a source text that is parsed without errors, declarations are written as a type, a name and
sizes in brackets; the first one of a name is entered with one array layer for each size, the first
size outermost, where a size without a value is zero and is complained about once. -/
theorem array_sizes_exact :
    (∀ text, (∃ source, ∃ token ∈ (tokenize source).1,
        token.category = .int ∧ token.lexeme = text) ↔ ∃ n : Numeral, n.text = text) ∧
      (∀ n : Numeral, literalValue? n.text = n.size?) ∧
      ∀ source, (compile .builtin source).parsed.errors = [] →
        (∀ node ∈ (compile .builtin source).parsed.tree.nodes,
          node.symbol = "VariableDeclaration" → node.startsWith "TYPE" = true →
            node.leaves expanded <:+: (tokenize source).1.map .ofToken ∧
              ∃ typeName name sizes, SpellsArray typeName name sizes (node.leaves expanded)) ∧
          ∀ typeName name sizes,
            (compile .builtin source).FirstDeclares typeName name sizes →
              (compile .builtin source).lowered.symbols.get? name =
                  some (sizes.foldr (fun n element => .array (n.size?.getD 0) element)
                    (.primitive typeName)) ∧
                ((compile .builtin source).lowered.errors.filter (·.isSizeOf name)).map
                    (·.fault.message) =
                  (sizes.filter (·.size?.isNone)).map fun n =>
                    s!"invalid array size '{n.text}' for '{name}'" := by
  refine ⟨exists_token_iff_numeral, Numeral.literalValue?_text, fun source herrors =>
    ⟨fun node hn => exists_spellsArray_of_mem_nodes herrors hn, fun typeName name sizes h => ?_⟩⟩
  obtain ⟨before, declaration, after, hds, rfl, rfl, htexts, hfirst⟩ :=
    exists_declarators_of_firstDeclares herrors h
  have hregister := register_compile source
  rw [hds] at hregister
  obtain ⟨hentry, hsizes⟩ := Register.empty.declareAll_first before after declaration
    List.not_mem_nil hfirst
  rw [← hregister, Lowering.symbols_register] at hentry
  rw [← hregister, Register.sizeErrors_register, Register.sizeErrors_empty,
    List.nil_append] at hsizes
  constructor
  · rw [← Declaration.type_eq htexts]
    exact SymbolTable.get?_eq_some_iff.2 hentry
  · rw [← Declaration.sizeMessages_eq htexts, hsizes]

def bracketed : String := "int x[3][0x][010]; float x[5];"

theorem array_sizes_exact_bracketed :
    (compile .builtin bracketed).parsed.errors = [] ∧
      (compile .builtin bracketed).lowered.symbols.get? "x" =
        some (.array 3 (.array 0 (.array 8 .int))) ∧
      ((compile .builtin bracketed).lowered.errors.filter (·.isSizeOf "x")).map
        (·.fault.message) = ["invalid array size '0x' for 'x'"] := by
  have hparsed : (compile .builtin bracketed).parsed.errors = [] ∧
      ((compile .builtin bracketed).parsed.tree.nodes[1]?.map fun node =>
        (node.symbol, (node.leaves expanded).map fun t => (t.symbol, t.value))) =
          some ("VariableDeclaration", [("TYPE", some "int"), ("ID", some "x"), ("LB", none),
            ("INT", some "3"), ("RB", none), ("LB", none), ("INT", some "0x"), ("RB", none),
            ("LB", none), ("INT", some "010"), ("RB", none)]) ∧
      ∀ earlier ∈ (compile .builtin bracketed).parsed.tree.nodes.take 1,
        earlier.declared? = none := by decide +kernel
  obtain ⟨herrors, hnode, hbefore⟩ := hparsed
  obtain ⟨node, hget, hnode⟩ := Option.map_eq_some_iff.1 hnode
  obtain ⟨hs, hleaves⟩ := Prod.mk.inj hnode
  obtain ⟨hlt, hget⟩ := List.getElem?_eq_some_iff.1 hget
  have hsplit := (List.take_append_drop 1 (compile .builtin bracketed).parsed.tree.nodes).symm
  rw [List.drop_eq_getElem_cons hlt, hget] at hsplit
  have hfirst : (compile .builtin bracketed).FirstDeclares "int" "x"
      [.decimal '3' [] (by decide) (List.forall_mem_singleton.2 rfl),
        .hexadecimal 'x' [] (Or.inl rfl) (List.forall_mem_nil _),
        .octal ['1', '0'] (List.forall_mem_cons.2 ⟨rfl, List.forall_mem_singleton.2 rfl⟩)] := by
    refine ⟨_, node, _, hsplit, hs, ⟨[], hleaves, Or.inl rfl⟩, fun earlier he d hd => ?_⟩
    rw [hbefore earlier he] at hd
    exact absurd hd (by simp)
  exact ⟨herrors, (array_sizes_exact.2.2 bracketed herrors).2 "int" "x" _ hfirst⟩

end FrontEnd
