import FrontEnd.Proofs.Declarations
import FrontEnd.Proofs.Json
import FrontEnd.Proofs.Lowering.Mismatches
import FrontEnd.Proofs.Program.Leaves
import FrontEnd.Proofs.TypeTexts
import FrontEnd.Report.Json

/-! # Types are known by their texts

Types with plain names are equal if their texts are. So a complaint about a mismatch never shows one
text twice, and the symbol table can be read back from what is written of it. All names in a
source text are plain.

* `StructDefinition.names_fieldsOf`, `Tree.names_of_mem_declarators`: the names in declared types.
* `knows_compile`: the types of a source text.
* `type_text_injective`: types, mismatches and symbol tables.
-/

namespace FrontEnd
set_option autoImplicit false

open Grammar (expanded)

/-! ## Names in declared types -/

/-- Some node for a name or a type shows the text. -/
def Tree.Names (tree : Tree) (text : String) : Prop :=
  ∃ node ∈ tree.nodes, (node.symbol = "ID" ∨ node.symbol = "TYPE") ∧ node.value = some text

theorem Tree.Names.of_child {tree child : Tree} {text : String} (h : child.Names text)
    (hc : child ∈ tree.children) : tree.Names text := by
  obtain ⟨node, hn, hnode⟩ := h
  exact ⟨node, mem_nodes_of_child hn hc, hnode⟩

theorem Tree.names_of_child? {tree child : Tree} {index : Nat} {text : String}
    (hc : tree.child? index = some child) (hs : child.symbol = "ID" ∨ child.symbol = "TYPE")
    (hv : child.value = some text) : tree.Names text :=
  Names.of_child ⟨child, mem_nodes_self child, hs, hv⟩ (List.mem_of_getElem? hc)

theorem Tree.Names.of_mem_nodes {tree node : Tree} {text : String} (h : node.Names text)
    (hn : node ∈ tree.nodes) : tree.Names text :=
  Tree.of_mem_nodes (p := fun node => node.Names text → tree.Names text)
    (fun _ _ hup hc h => hup (h.of_child hc)) id hn h

theorem Tree.names_of_matched? {tree : Tree} {index : Nat} {symbol : Symbol} {text : String}
    (h : tree.matched? index symbol = some text) (hs : symbol = "ID" ∨ symbol = "TYPE") :
    tree.Names text := by
  obtain ⟨leaf, hc, hv⟩ := Option.bind_eq_some_iff.1 h
  split at hv
  · rename_i hsymbol
    obtain rfl : leaf.symbol = symbol := eq_of_beq hsymbol
    exact names_of_child? hc hs hv
  · exact absurd hv (by simp)

namespace StructDefinition

mutual

theorem names_fieldsOf : ∀ tree : Tree, tree.FollowsRules expanded → tree.symbol = "StructBody" →
    ∀ field ∈ fieldsOf tree, tree.Names field.typeName ∧ tree.Names field.name
  | ⟨symbol, line, value, children⟩, h, hs, field, hf => by
    unfold fieldsOf at hf
    dsimp only at hf
    split at hf
    · rename_i typeName name htype hname
      rcases List.mem_cons.1 hf with rfl | hf
      · obtain ⟨type, htype, hvalue⟩ := Option.bind_eq_some_iff.1 htype
        obtain ⟨leaf, hleaf, hvalue'⟩ := Option.bind_eq_some_iff.1 hname
        have htypeSymbol := Tree.symbol_of_child? "TYPE" h htype (by decide) hs
        have hnameSymbol := Tree.symbol_of_child? "ID" h hleaf (by decide) hs
        exact ⟨Tree.names_of_child? htype (Or.inr htypeSymbol) hvalue,
          Tree.names_of_child? hleaf (Or.inl hnameSymbol) hvalue'⟩
      · obtain ⟨body, hm, htype, hname⟩ := names_fieldsAt children 3 (fun body hb =>
          ⟨h.child (List.mem_of_getElem? hb),
            Tree.symbol_of_child? "StructBody" h hb (by decide) hs⟩) field hf
        exact ⟨htype.of_child hm, hname.of_child hm⟩
    · exact absurd hf List.not_mem_nil

theorem names_fieldsAt : ∀ (trees : List Tree) (index : Nat),
    (∀ tree, trees[index]? = some tree → tree.FollowsRules expanded ∧ tree.symbol = "StructBody") →
    ∀ field ∈ fieldsAt trees index,
      ∃ tree ∈ trees, tree.Names field.typeName ∧ tree.Names field.name
  | [], _, _, field, hf => by
    rw [fieldsAt] at hf
    exact absurd hf List.not_mem_nil
  | tree :: rest, 0, h, field, hf => by
    rw [fieldsAt] at hf
    obtain ⟨hfollows, hs⟩ := h tree rfl
    exact ⟨tree, List.mem_cons_self, names_fieldsOf tree hfollows hs field hf⟩
  | tree :: rest, index + 1, h, field, hf => by
    rw [fieldsAt] at hf
    obtain ⟨other, hm, hnames⟩ := names_fieldsAt rest index h field hf
    exact ⟨other, List.mem_cons_of_mem tree hm, hnames⟩

end

/-- A record has the names of its fields and of their types. -/
theorem mem_fieldNames_members {definition name : String} {fields : List Field}
    {taken : List (String × Ty)} (h : name ∈ Ty.fieldNames (members definition taken fields).1) :
    name ∈ Ty.fieldNames taken ∨ ∃ field ∈ fields, name = field.typeName ∨ name = field.name := by
  induction fields generalizing taken with
  | nil => exact Or.inl h
  | cons field fields ih =>
    rw [members] at h
    split at h
    · rcases ih h with h | ⟨other, hm, hname⟩
      · exact Or.inl h
      · exact Or.inr ⟨other, List.mem_cons_of_mem _ hm, hname⟩
    · rcases ih h with h | ⟨other, hm, hname⟩
      · rw [Ty.fieldNames_append, List.mem_append] at h
        refine h.imp_right fun h => ⟨field, List.mem_cons_self, ?_⟩
        simpa [Ty.fieldNames, Ty.names, or_comm] using h
      · exact Or.inr ⟨other, List.mem_cons_of_mem _ hm, hname⟩

end StructDefinition

/-- All names in the types that a tree declares are shown by nodes for names and types. -/
theorem Tree.names_of_mem_declarators {tree : Tree} (h : tree.FollowsRules expanded)
    {d : Declarator} (hd : d ∈ tree.declarators) {name : String}
    (hn : name ∈ d.declared.type.names) : tree.Names name := by
  obtain ⟨node, hnode, hd⟩ := List.mem_filterMap.1 hd
  have hfollows : node.FollowsRules expanded :=
    Tree.of_mem_nodes (fun _ _ h hc => h.child hc) h hnode
  refine Names.of_mem_nodes ?_ hnode
  unfold declarator? at hd
  split at hd
  · obtain ⟨typeName, htype, hd⟩ := Option.bind_eq_some_iff.1 hd
    obtain ⟨declared, -, hd⟩ := Option.bind_eq_some_iff.1 hd
    obtain rfl := Option.some.inj hd
    have hnames : name ∈ (Ty.arrayOf (.primitive typeName) _).names := hn
    rw [Ty.names_arrayOf, Ty.names, List.mem_singleton] at hnames
    exact hnames ▸ names_of_matched? htype (Or.inr rfl)
  · rename_i hs
    obtain ⟨definition, -, hd⟩ := Option.bind_eq_some_iff.1 hd
    obtain rfl := Option.some.inj hd
    rcases StructDefinition.mem_fieldNames_members hn with hn | ⟨field, hf, hname⟩
    · exact absurd hn List.not_mem_nil
    · obtain ⟨body, hm, htype, hfield⟩ := StructDefinition.names_fieldsAt node.children 3
        (fun body hb => ⟨hfollows.child (List.mem_of_getElem? hb),
          symbol_of_child? "StructBody" hfollows hb (by decide) hs⟩) field hf
      rcases hname with rfl | rfl
      · exact htype.of_child hm
      · exact hfield.of_child hm
  · exact absurd hd (by simp)

/-! ## Source texts -/

theorem Ty.not_isDelimiter_of_isWordChar {c : Char} (h : isWordChar c = true) :
    isDelimiter c = false := by
  have hall : (['(', ')', ',', ' '].all fun d => !isWordChar d) = true := by decide
  refine Bool.eq_false_iff.2 fun hd => ?_
  have hm : c ∈ ['(', ')', ',', ' '] := by simpa [isDelimiter, or_assoc] using hd
  have hc := List.all_eq_true.1 hall c hm
  rw [h] at hc
  exact absurd hc (by simp)

/-- All types of a source text have plain names. -/
theorem knows_compile (source : String) :
    (compile .builtin source).lowered.Knows Ty.HasPlainNames := by
  refine knows_analyze (by decide) (by decide) fun d hd name hn => ?_
  have hdeclared : d ∈ (compile .builtin source).parsed.tree.declarators :=
    allDeclarators_compile source ▸ hd
  obtain ⟨node, hnode, hs, hv⟩ :=
    Tree.names_of_mem_declarators (followsRules_compile source).1 hdeclared hn
  exact fun c hc => Ty.not_isDelimiter_of_isWordChar (isWordChar_of_mem_nodes hnode hv hs c hc)

/-! ## Types and their texts -/

theorem Ty.text_injective {a b : Ty} (ha : a.HasPlainNames) (hb : b.HasPlainNames)
    (h : a.text = b.text) : a = b := by
  have hend : EndsType [] := fun _ hc => absurd hc (by simp)
  exact (text_inj a b ha hb hend hend (congrArg (·.toList ++ []) h)).1

/-- The entries of a symbol table are told by the names and texts that are written of them. -/
theorem SymbolTable.entries_inj {table other : SymbolTable}
    (ht : ∀ entry ∈ table.entries, entry.2.HasPlainNames)
    (ho : ∀ entry ∈ other.entries, entry.2.HasPlainNames)
    (h : table.json.pretty = other.json.pretty) : table.entries = other.entries := by
  refine eq_of_map_eq (fun entry he entry' he' hentry => ?_)
    (Json.array.inj (Json.pretty_injective h))
  obtain ⟨hname, htext⟩ : entry.1 = entry'.1 ∧ entry.2.text = entry'.2.text := by
    simpa [Json.object, List.mergeSort] using hentry
  exact Prod.ext hname (Ty.text_injective (ht entry he) (ho entry' he') htext)

/-- For all types whose names hold no parenthesis, comma or space: equal texts are texts of the same
type. So whatever program is analyzed, a complaint about two such types shows two different texts,
and the text that is written of a symbol table with such types tells its entries. All types of a
source text are of this kind. -/
theorem type_text_injective :
    (∀ a b : Ty, a.HasPlainNames → b.HasPlainNames → a.text = b.text → a = b) ∧
      (∀ (program : List Statement) (line : Nat) (left right : Ty),
        ⟨line, .typeMismatch left right⟩ ∈ (analyze program).errors →
          left.HasPlainNames → right.HasPlainNames → left.text ≠ right.text) ∧
      (∀ table other : SymbolTable, (∀ entry ∈ table.entries, entry.2.HasPlainNames) →
        (∀ entry ∈ other.entries, entry.2.HasPlainNames) →
          table.json.pretty = other.json.pretty → table.entries = other.entries) ∧
      ∀ source : String,
        (∀ entry ∈ (compile .builtin source).lowered.symbols.entries, entry.2.HasPlainNames) ∧
          ∀ line left right,
            ⟨line, .typeMismatch left right⟩ ∈ (compile .builtin source).lowered.errors →
              left.text ≠ right.text := by
  refine ⟨fun a b => Ty.text_injective, fun program line left right h ha hb ht => ?_,
    fun table other => SymbolTable.entries_inj, fun source => ⟨(knows_compile source).entries, ?_⟩⟩
  · have hknows : (analyze program).Knows fun _ => True :=
      knows_analyze trivial trivial fun _ _ => trivial
    obtain ⟨-, -, hne⟩ := hknows.errors _ h left right rfl
    exact hne (Ty.text_injective ha hb ht)
  · intro line left right h ht
    obtain ⟨ha, hb, hne⟩ := (knows_compile source).errors _ h left right rfl
    exact hne (Ty.text_injective ha hb ht)

/-- The sum of two records whose fields have different names. -/
def mixedRecords : List Statement :=
  [.define ⟨1, "p", [⟨1, "int", "array"⟩]⟩, .define ⟨2, "q", [⟨2, "int", "record"⟩]⟩,
    .assign ⟨3, "p", .value (some (.binary "+" 3 (.name 3 "p") (.name 3 "q")))⟩]

theorem type_text_injective_mixedRecords :
    (analyze mixedRecords).errors =
        [⟨3, .typeMismatch (.record [("array", .int)]) (.record [("record", .int)])⟩] ∧
      (Ty.record [("array", .int)]).text ≠ (Ty.record [("record", .int)]).text :=
  have herrors : (analyze mixedRecords).errors =
      [⟨3, .typeMismatch (.record [("array", .int)]) (.record [("record", .int)])⟩] := by decide
  ⟨herrors, type_text_injective.2.1 mixedRecords 3 _ _ (herrors ▸ List.mem_singleton_self _)
    (by decide) (by decide)⟩

end FrontEnd
