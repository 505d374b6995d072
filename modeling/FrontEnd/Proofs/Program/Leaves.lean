import FrontEnd.Compilation
import FrontEnd.Proofs.Parse.Shape
import FrontEnd.Proofs.Token.LongestMatch
import FrontEnd.Proofs.Token.Values

/-! # What stands at the leaves

In the tree of a source text a node with a value was matched with a token whose category is the
symbol of the node. In a tree that follows the rules, the places of a production tell the symbols of
the children.

* `exists_token_of_mem_nodes`: the token of a node with a value.
* `isWordChar_of_mem_nodes`, `isLiteral_of_mem_nodes`: the values of names, types and literals.
* `Tree.symbol_of_child?`, `Tree.symbol_behind`: what a child is, by its parent or by the first
  child.
-/

namespace FrontEnd
set_option autoImplicit false

open Grammar (expanded)

/-! ## Values -/

theorem isWordChar_of_isWordStart {c : Char} (h : isWordStart c = true) : isWordChar c = true := by
  rw [isWordStart, Bool.or_eq_true] at h
  rw [isWordChar, Char.isAlphanum, Bool.or_eq_true, Bool.or_eq_true]
  exact h.imp_left Or.inl

theorem Lexeme.isWordChar_of_first? {s : List Char} {l : Lexeme} (h : first? s = some l)
    (hc : l.category = .identifier ∨ l.category = .typeName) :
    ∀ c ∈ l.text, isWordChar c = true := by
  obtain ⟨k, hk, hclass, -⟩ := exists_class_of_first? h
  have hword : k = .word := by
    cases k with
    | word => rfl
    | float | integer | string =>
      obtain ⟨hcategory, -⟩ := hclass
      rw [hcategory] at hc
      exact absurd hc (by simp)
    | operator =>
      have hall : ∀ operator ∈ operators,
          operator.2 ≠ .identifier ∧ operator.2 ≠ .typeName := by decide
      obtain ⟨hidentifier, htype⟩ := hall _ hclass.1
      exact absurd hc (by simp [hidentifier, htype])
  obtain ⟨first, run, hfirst, hrun, htext⟩ := mem_language_word.1
    ((TokenClass.findsLongest_find? .word).sound (hword ▸ hk)).1
  rw [htext]
  exact List.forall_mem_cons.2 ⟨isWordChar_of_isWordStart hfirst, hrun⟩

theorem Tree.label_mem_labels {tree node : Tree} (h : node ∈ tree.nodes) :
    ⟨node.symbol, node.value, node.line⟩ ∈ tree.labels := by
  refine Tree.of_mem_nodes (p := fun node => ∀ label ∈ node.labels, label ∈ tree.labels)
    (fun node child hn hc label hl => hn label ?_) (fun _ hl => hl) h _ ?_
  · cases node
    rw [labels]
    exact List.mem_cons_of_mem _ (mem_forestLabels.2 ⟨child, hc, hl⟩)
  · cases node
    rw [labels]
    exact List.mem_cons_self

section
variable {g : PreparedGrammar} {source value : String} {node : Tree}
  (hn : node ∈ (compile g source).parsed.tree.nodes) (hv : node.value = some value)
include hn hv

/-- A node with a value was matched with a token of its category. -/
theorem exists_token_of_mem_nodes :
    ∃ token ∈ (tokenize source).1, token.category.name = node.symbol ∧ token.value = some value := by
  obtain ⟨-, hlabel⟩ := isLabel_of_mem_parse _ _ (Tree.label_mem_labels hn)
  rcases hlabel with hnone | hm
  · exact absurd (hnone.symm.trans hv) (by simp)
  · obtain ⟨token, ht, he⟩ := List.mem_map.1 hm
    exact ⟨token, ht, congrArg Terminal.symbol he, (congrArg Terminal.value he).trans hv⟩

/-- Names and types are words. -/
theorem isWordChar_of_mem_nodes (hs : node.symbol = "ID" ∨ node.symbol = "TYPE") :
    ∀ c ∈ value.toList, isWordChar c = true := by
  obtain ⟨token, ht, hname, hvalue⟩ := exists_token_of_mem_nodes hn hv
  obtain ⟨id, line, l, s, rfl, hfirst⟩ := exists_first?_of_mem_tokenize ht
  have hregular := Lexeme.isRegular_of_first? hfirst
  have hcategory : l.category = .identifier ∨ l.category = .typeName :=
    hs.imp (fun hs => hregular.category_eq (by simp) (hname.trans hs))
      fun hs => hregular.category_eq (by simp) (hname.trans hs)
  have htext : l.value = some (String.ofList l.text) := by
    rcases hcategory with hc | hc <;> rw [Lexeme.value, hc]
  obtain rfl := Option.some.inj (htext.symm.trans hvalue)
  rw [String.toList_ofList]
  exact Lexeme.isWordChar_of_first? hfirst hcategory

/-- The value of a literal is one. -/
theorem isLiteral_of_mem_nodes (hs : node.symbol = "INT" ∨ node.symbol = "FLOAT") :
    isLiteral value = true := by
  obtain ⟨token, ht, hname, hvalue⟩ := exists_token_of_mem_nodes hn hv
  obtain ⟨id, line, l, rfl, hregular⟩ := exists_lexeme_of_mem_tokenize ht
  have hcategory : l.category = .int ∨ l.category = .float :=
    hs.imp (fun hs => hregular.category_eq (by simp) (hname.trans hs))
      fun hs => hregular.category_eq (by simp) (hname.trans hs)
  have htext : l.value = some (String.ofList l.text) := by
    rcases hcategory with hc | hc <;> rw [Lexeme.value, hc]
  obtain rfl := Option.some.inj (htext.symm.trans hvalue)
  exact hregular.literal hcategory

end

/-! ## Places -/

namespace Tree

/-- The production below a node. -/
theorem FollowsRules.exists_rule {g : Grammar} {tree child : Tree} (h : tree.FollowsRules g)
    {index : Nat} (hc : tree.child? index = some child) :
    ∃ rule ∈ g.rules, rule.left = tree.symbol ∧
      ∀ place, rule.production[place]? = (tree.child? place).map (·.symbol) := by
  rcases (followsRules_iff.1 h).1 with hnil | hp
  · rw [child?, hnil] at hc
    exact absurd hc (by simp)
  · obtain ⟨rule, hr, hl, hproduction⟩ := Grammar.exists_rule hp
    refine ⟨rule, hr, hl, fun place => ?_⟩
    rw [hproduction, List.getElem?_map]
    rfl

section
variable {tree child : Tree} {index : Nat} (symbol : Symbol) (h : tree.FollowsRules expanded)
  (hc : tree.child? index = some child)
include h hc

theorem symbol_of_child? {left : Symbol}
    (hrules : ∀ rule ∈ expanded.rules, rule.left = left →
      ∀ found, rule.production[index]? = some found → found = symbol)
    (hs : tree.symbol = left) : child.symbol = symbol := by
  obtain ⟨rule, hr, hl, hplaces⟩ := h.exists_rule hc
  refine hrules rule hr (hl.trans hs) child.symbol ?_
  rw [hplaces, hc, Option.map_some]

theorem symbol_behind {first : Symbol}
    (hrules : ∀ rule ∈ expanded.rules, rule.production[0]? = some first →
      ∀ found, rule.production[index]? = some found → found = symbol)
    (hs : tree.startsWith first = true) : child.symbol = symbol := by
  obtain ⟨rule, hr, -, hplaces⟩ := h.exists_rule hc
  obtain ⟨other, hother, hfirst⟩ := (Option.any_eq_true ..).1 hs
  refine hrules rule hr ?_ child.symbol ?_
  · rw [hplaces, hother, Option.map_some, eq_of_beq hfirst]
  · rw [hplaces, hc, Option.map_some]

end
end Tree
end FrontEnd
