import FrontEnd.Proofs.Compilation
import FrontEnd.Proofs.Declarations
import FrontEnd.Proofs.Lowering.Types
import FrontEnd.Proofs.Token.Boundary

/-! # Silence means well-typed code

If nothing is complained about, the types of all operands in the code are known, and operands that
are joined or compared are of one type.

* `Compilation.HasLiteral`, `Compilation.typing`: what the types in the code are told from.
* `isName_of_mem_names`: the names in the symbol table are those of identifiers.
* `compile_isTyped`: the code of a source text without faults.
-/

namespace FrontEnd
set_option autoImplicit false

open Grammar (expanded)

/-! ## Literals -/

/-- The text is that of an integer or of a float among the tokens. -/
def Compilation.HasLiteral (c : Compilation) (text : String) (type : Ty) : Prop :=
  ∃ token ∈ c.tokens, token.value = some text ∧
    (token.category = .int ∧ type = .int ∨ token.category = .float ∧ type = .float)

def Compilation.typing (c : Compilation) : Typing :=
  c.lowered.typing c.HasLiteral

/-- A literal is the first lexeme of its own text. -/
theorem exists_lexeme_of_value {source : String} {token : Token} {text : String}
    (h : token ∈ (tokenize source).1) (hc : token.category = .int ∨ token.category = .float)
    (hv : token.value = some text) :
    ∃ l : Lexeme, Lexeme.first? l.text = some l ∧ String.ofList l.text = text ∧
      l.category = token.category := by
  obtain ⟨id, line, l, s, rfl, hs⟩ := exists_first?_of_mem_tokenize h
  have hcategory : l.category = .int ∨ l.category = .float := hc
  have hvalue : l.value = some (String.ofList l.text) := by
    rcases hcategory with hcategory | hcategory <;> rw [Lexeme.value, hcategory]
  exact ⟨l, Lexeme.first?_text hs, Option.some.inj (hvalue.symm.trans hv), rfl⟩

section
variable {source text : String} {type other : Ty}

/-- No literal is an integer and a float. -/
theorem hasLiteral_unique (h : (compile .builtin source).HasLiteral text type)
    (h' : (compile .builtin source).HasLiteral text other) : type = other := by
  obtain ⟨token, hm, hv, hc⟩ := h
  obtain ⟨token', hm', hv', hc'⟩ := h'
  obtain ⟨l, hl, ht, he⟩ := exists_lexeme_of_value hm (hc.imp And.left And.left) hv
  obtain ⟨l', hl', ht', he'⟩ := exists_lexeme_of_value hm' (hc'.imp And.left And.left) hv'
  have htext : l.text = l'.text := String.ofList_injective (ht.trans ht'.symm)
  obtain rfl : l = l' := Option.some.inj (hl.symm.trans (htext ▸ hl'))
  rw [← he] at hc
  rw [← he'] at hc'
  rcases hc with ⟨hc, rfl⟩ | ⟨hc, rfl⟩ <;> rcases hc' with ⟨hc', rfl⟩ | ⟨hc', rfl⟩
  · rfl
  · exact absurd (hc.symm.trans hc') (by simp)
  · exact absurd (hc.symm.trans hc') (by simp)
  · rfl

theorem isLiteral_of_hasLiteral (h : (compile .builtin source).HasLiteral text type) :
    isLiteral text = true := by
  obtain ⟨token, hm, hv, hc⟩ := h
  have hcategory := hc.imp And.left And.left
  obtain ⟨l, hl, rfl, he⟩ := exists_lexeme_of_value hm hcategory hv
  exact (Lexeme.isRegular_of_first? hl).literal (he ▸ hcategory)

/-- The terminals that are read as literals are the literals among the tokens. -/
theorem satisfies_isLiteralOf {t : Terminal} (ht : t ∈ (tokenize source).1.map .ofToken) :
    t.Satisfies (IsLiteralOf (compile .builtin source).HasLiteral) := by
  obtain ⟨token, hm, rfl⟩ := List.mem_map.1 ht
  obtain ⟨id, line, l, rfl, hl⟩ := exists_lexeme_of_mem_tokenize hm
  intro text hv
  refine ⟨fun hs => ⟨_, hm, hv, .inl ⟨hl.category_eq (by simp) hs, rfl⟩⟩,
    fun hs => ⟨_, hm, hv, .inr ⟨hl.category_eq (by simp) hs, rfl⟩⟩⟩

end

/-! ## Declared names -/

theorem Tree.IsRegular.isName_of_matched? {tree : Tree} (h : tree.IsRegular) {index : Nat}
    {name : String} (hm : tree.matched? index "ID" = some name) : IsName name := by
  obtain ⟨leaf, hc, hv⟩ := Option.bind_eq_some_iff.1 hm
  split at hv
  · rename_i hs
    have hleaf := h.of_mem_children (List.mem_of_getElem? hc)
    obtain ⟨line, value, rfl, hlexical⟩ := hleaf.exists_leaf (eq_of_beq hs) (by decide)
    obtain ⟨text, ht, hname⟩ := hlexical.name rfl
    obtain rfl := Option.some.inj (ht.symm.trans hv)
    exact hname
  · exact absurd hv (by simp)

theorem Tree.matched?_of_declared? {tree : Tree} {d : Declared} (h : tree.declared? = some d) :
    tree.matched? 1 "ID" = some d.name := by
  unfold declared? at h
  split at h
  · obtain ⟨typeName, -, h⟩ := Option.bind_eq_some_iff.1 h
    obtain ⟨name, hname, h⟩ := Option.bind_eq_some_iff.1 h
    obtain rfl := Option.some.inj h
    exact hname
  · obtain ⟨name, hname, h⟩ := Option.bind_eq_some_iff.1 h
    obtain rfl := Option.some.inj h
    exact hname
  · exact absurd h (by simp)

section
variable {source : String} (hclean : (compile .builtin source).diagnostics = [])
  (hnames : ∀ token ∈ (tokenize source).1, token.category = .identifier →
    isTemporaryName token.lexeme = false)
include hclean hnames

/-- Every name in the symbol table is one of the text. -/
theorem isName_of_mem_names {name : String}
    (h : name ∈ (compile .builtin source).lowered.symbols.names) : IsName name := by
  have hentries := (Scope.declareAll_empty (compile .builtin source).declarations).1
  rw [← scope_compile, Lowering.symbols_scope] at hentries
  obtain ⟨⟨name, type⟩, hm, rfl⟩ := List.mem_map.1 h
  rw [hentries, Declared.mem_firsts] at hm
  obtain ⟨d, hd, -⟩ := Option.map_eq_some_iff.1 hm.2
  obtain ⟨node, hn, hdeclared⟩ := List.mem_filterMap.1 (List.mem_of_find?_eq_some hd)
  have hname : d.name = name := by simpa using List.find?_some hd
  obtain ⟨hregular, -⟩ := isRegular_parsed hclean hnames
  rw [← hname]
  exact (hregular.of_mem_nodes hn).isName_of_matched? (Tree.matched?_of_declared? hdeclared)

/-! ## Source texts -/

theorem isClear_typing : (compile .builtin source).typing.IsClear :=
  Lowering.Reaches.isClear (Statement.reaches_lowerList _ .initial)
    (fun _ => isName_of_mem_names hclean hnames) (fun _ _ => isLiteral_of_hasLiteral)
    fun _ _ _ => hasLiteral_unique

/-- The whole code is accepted. -/
theorem isTyped_compile :
    (compile .builtin source).lowered.IsTyped (compile .builtin source).HasLiteral := by
  obtain ⟨hregular, hs, hl⟩ := isRegular_parsed hclean hnames
  obtain ⟨p, hreads, hmean, -⟩ := (Tree.statementRead_of_isRegular hregular).program hs
  have hliterals : p.Every (IsLiteralOf (compile .builtin source).HasLiteral) :=
    hreads.every fun t ht => satisfies_isLiteralOf (hl ▸ ht)
  exact Statement.isTyped_lowerList _ (fun _ => hregular.hasWholeGuard) (hmean ▸ hliterals)
    Lowering.isTyped_initial (errors_of_diagnostics hclean).2

end

/-- For a source text without faults, in which no identifier is a `t` and digits: whatever the code
reads has a type, and what it joins or compares has the same type; whatever it reads or assigns to
is a literal of the text, a declared name or a temporary; and nothing has two types. -/
theorem compile_isTyped (source : String) (hclean : (compile .builtin source).diagnostics = [])
    (hnames : ∀ token ∈ (tokenize source).1, token.category = .identifier →
      isTemporaryName token.lexeme = false) :
    (∀ line instruction,
      (compile .builtin source).lowered.code.get? line = some instruction →
        (compile .builtin source).typing.Accepts instruction ∧
          ∀ place, place ∈ instruction.operands ∨ instruction.result? = some place →
            (compile .builtin source).typing.IsPlace place) ∧
      ∀ place type other, (compile .builtin source).typing.HasType place type →
        (compile .builtin source).typing.HasType place other → type = other := by
  refine ⟨fun line instruction h => ?_, fun place type other h h' => ?_⟩
  · have haccepts := isTyped_compile hclean hnames line instruction h
    exact ⟨haccepts, fun place hp => haccepts.isPlace hp⟩
  · exact h.unique (isClear_typing hclean hnames) h'

def scaled : String := "float f = 2.5; f = f * 0.5;"

theorem compile_isTyped_scaled :
    (compile .builtin scaled).diagnostics = [] ∧
      (compile .builtin scaled).lowered.code.get? 3 = some (.binary "*" "f" "0.5" "t2") ∧
      (compile .builtin scaled).typing.Match "f" "0.5" := by
  have hcompiled : (compile .builtin scaled).diagnostics = [] ∧
      (compile .builtin scaled).lowered.code.get? 3 = some (.binary "*" "f" "0.5" "t2") := by
    decide +kernel
  obtain ⟨hclean, hcode⟩ := hcompiled
  obtain ⟨haccepts, -⟩ := compile_isTyped scaled hclean (by decide +kernel)
  exact ⟨hclean, hcode, (haccepts 3 _ hcode).1.1⟩

end FrontEnd
