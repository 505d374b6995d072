import FrontEnd.Proofs.Grammar.Builtin
import FrontEnd.Proofs.Grammar.FirstMeaning
import FrontEnd.Proofs.Grammar.Normalization
import FrontEnd.Proofs.Parse.Completeness
import FrontEnd.Proofs.Token.Values

/-! # The language that is accepted

A parse without a complaint is a derivation, and without conflicts every derivation is found. Both
transformations keep the words of a grammar, so the rules as they were written say which source
texts are accepted.

* `complete_or_complains`: a parse that is not complete says so, if the end marker is not used up.
* `parse_accepts_iff`: without conflicts, the words of the normal form are accepted.
* `Grammar.derives_normalized_iff`: the normal form has the words of the grammar as written.
* `Lexeme.IsRegular.isWord_name`: a token is never mistaken for a nonterminal.
* `generates_expanded_iff`: the words of the built-in grammar before and after.
* `accepts_builtin_iff`: the source texts that the built-in grammar accepts.
-/

namespace FrontEnd
set_option autoImplicit false

/-! ## Any grammar -/

/-- A parse that is not complete complains, unless the grammar mentions the end marker. It says
nothing exactly if it has used up the end marker behind all terminals without an error. -/
theorem complete_or_complains (source : Grammar) (terminals : List Terminal) :
    ((parse (.ofGrammar source) terminals).complete = true ∨
      (parse (.ofGrammar source) terminals).errors ≠ [] ∨ OnRight source.rules endMarker) ∧
    ((parse (.ofGrammar source) terminals).complete = false ∧
        (parse (.ofGrammar source) terminals).errors = [] ↔
      ((ParseState.ofTerminals (.ofGrammar source) terminals).run (.ofGrammar source)).errors = [] ∧
        ∃ last : Terminal, last.symbol = endMarker ∧
          ((ParseState.ofTerminals (.ofGrammar source) terminals).run
              (.ofGrammar source)).tree.leaves (PreparedGrammar.ofGrammar source).normalized =
            terminals ++ [last]) := by
  refine ⟨?_, incomplete_without_errors_iff rfl⟩
  cases hcomplete : (parse (.ofGrammar source) terminals).complete with
  | true => exact Or.inl rfl
  | false =>
    refine Or.inr (or_iff_not_imp_left.2 fun herrors => ?_)
    exact endMarker_onRight_of_normalized
      (exists_endMarker_of_incomplete rfl hcomplete (not_not.1 herrors))

/-- The rule asks for the end marker itself. -/
def Grammar.marked : Grammar where
  rules := [⟨"S", ["a", endMarker]⟩]
  nonempty := by simp

theorem marked_silent :
    (parse (.ofGrammar .marked) [⟨"a", none, 1⟩]).complete = false ∧
      (parse (.ofGrammar .marked) [⟨"a", none, 1⟩]).errors = [] := by
  decide +kernel

theorem parse_accepts_iff {g : PreparedGrammar} (hg : g.table = g.normalized.table)
    (hconflicts : g.table.conflicts = []) (hε : g.normalized.isNonterminal epsilon = false)
    {terminals : List Terminal} :
    ((parse g terminals).complete = true ∧ (parse g terminals).errors = []) ↔
      g.normalized.Generates (terminals.map (·.symbol)) := by
  constructor
  · rintro ⟨hcomplete, herrors⟩
    obtain ⟨hd, hstart, hleaves⟩ := isDerivation_of_parse hg hcomplete herrors
    refine (Grammar.generates_iff hε).2 ⟨_, hd, hstart, ?_⟩
    rw [Tree.word, hleaves]
  · intro h
    obtain ⟨tree, ht, hstart, hw⟩ := (Grammar.generates_iff hε).1 h
    obtain ⟨built, last, -, -, hrun⟩ :=
      ParseState.exists_run_eq hg hconflicts hε ht hstart hw.symm
    unfold parse
    rw [hrun]
    exact ⟨beq_self_eq_true _, rfl⟩

namespace Grammar

/-- Normalizing changes the words of no left side. -/
theorem derives_normalized_iff (g : Grammar) {symbol : Symbol}
    (hsymbol : ∃ rule ∈ g.rules, rule.left = symbol) {word : List Symbol}
    (hword : ∀ t ∈ word, t ∈ terminalsOf g.rules) :
    Derives g.rules [symbol] word ↔ Derives g.normalized.rules [symbol] word := by
  obtain ⟨rule, hr, rfl⟩ := hsymbol
  have hleft := left_mem_symbolsOf hr
  refine derives_iff_of_wordsOf_eq ?_ hword
  calc wordsOf g.normalized.rules (terminalsOf g.rules) rule.left
    _ = wordsOf (leftFactor g.rules) (terminalsOf g.rules) rule.left :=
      wordsOf_removeLeftRecursion (fun _ => mem_terminalsOf_leftFactor)
        (symbolsOf_subset_leftFactor hleft)
    _ = wordsOf g.rules (terminalsOf g.rules) rule.left :=
      wordsOf_leftFactor (fun _ => mem_symbolsOf_of_mem_terminalsOf) epsilon_not_mem_terminalsOf
        hleft

end Grammar

/-- Where the start symbol has a rule, its words are words over the terminals. -/
theorem mem_terminalsOf_of_derives {rules : List Rule} {start : Symbol}
    (hstart : ∃ rule ∈ rules, rule.left = start) {word : List Symbol}
    (hd : Derives rules [start] word) (hw : IsWord rules word) :
    ∀ t ∈ word, t ∈ terminalsOf rules := by
  intro t ht
  obtain ⟨hε, hleft⟩ := hw t ht
  refine ⟨(Derives.mem_or_mem_right hd ht).resolve_left fun hm => ?_, hε, hleft⟩
  obtain ⟨rule, hr, hl⟩ := hstart
  exact hleft rule hr (hl.trans (List.mem_singleton.1 hm).symm)

/-! ## The built-in grammar -/

/-- The categories are no nonterminals of the built-in grammar. -/
theorem Lexeme.IsRegular.isWord_name {lexeme : Lexeme} (h : lexeme.IsRegular) :
    IsWord builtinRules [lexeme.category.name] := by
  have hkeyword : ∀ word ∈ Category.keywords, IsWord builtinRules [word.toUpper] := by
    decide +kernel
  cases hc : lexeme.category with
  | keyword capitals =>
    obtain ⟨word, hw, rfl⟩ := h.keyword capitals hc
    exact hkeyword word hw
  | _ => decide +kernel

theorem isWord_tokenize (source : String) :
    IsWord builtinRules ((tokenize source).1.map (·.category.name)) := by
  intro t ht
  obtain ⟨token, hm, rfl⟩ := List.mem_map.1 ht
  obtain ⟨id, line, lexeme, rfl, hregular⟩ := exists_lexeme_of_mem_tokenize hm
  exact hregular.isWord_name _ (List.mem_singleton_self _)

theorem terminalsOf_expanded : terminalsOf Grammar.expanded.rules = terminalsOf builtinRules := by
  have hexpanded : ∀ rule ∈ Grammar.expanded.rules, ∀ t ∈ rule.right,
      t ∈ terminalsOf Grammar.expanded.rules → t ∈ terminalsOf builtinRules := by
    decide +kernel
  have hbuiltin : ∀ rule ∈ builtinRules, ∀ t ∈ rule.right,
      t ∈ terminalsOf builtinRules → t ∈ terminalsOf Grammar.expanded.rules := by
    decide +kernel
  ext t
  constructor
  · rintro h
    obtain ⟨rule, hr, ht⟩ := h.1
    exact hexpanded rule hr t ht h
  · rintro h
    obtain ⟨rule, hr, ht⟩ := h.1
    exact hbuiltin rule hr t ht h

theorem exists_program_rule : ∃ rule ∈ builtinRules, rule.left = "Program" :=
  ⟨⟨"Program", [epsilon]⟩, by decide, rfl⟩

/-- Normalized or not, the built-in grammar has the same words. -/
theorem generates_expanded_iff {word : List Symbol} (hword : IsWord builtinRules word) :
    Grammar.expanded.Generates word ↔ Derives builtinRules ["Program"] word := by
  have hsame : (∀ t ∈ word, t ∈ terminalsOf builtinRules) →
      (Derives builtinRules ["Program"] word ↔
        Derives Grammar.expanded.rules ["Program"] word) := by
    rw [← Grammar.normalized_builtin]
    exact Grammar.builtin.derives_normalized_iff exists_program_rule
  constructor
  · rintro ⟨hw, hd⟩
    refine (hsame ?_).2 hd
    rw [← terminalsOf_expanded]
    exact mem_terminalsOf_of_derives ⟨⟨"Program", [epsilon]⟩, by decide, rfl⟩ hd hw
  · intro hd
    have hletters := mem_terminalsOf_of_derives exists_program_rule hd hword
    refine ⟨fun t ht => ?_, (hsame hletters).1 hd⟩
    have hterminal := hletters t ht
    rw [← terminalsOf_expanded] at hterminal
    exact hterminal.2

/-- A source text is parsed completely and without a complaint exactly when the built-in grammar, as
it is written, derives the categories of its tokens. -/
theorem accepts_builtin_iff (source : String) :
    ((parseTokens .builtin (tokenize source).1).complete = true ∧
        (parseTokens .builtin (tokenize source).1).errors = []) ↔
      Derives builtinRules ["Program"] ((tokenize source).1.map (·.category.name)) := by
  have hnormalized : PreparedGrammar.builtin.normalized = .expanded := Grammar.normalized_builtin
  have hconflicts : PreparedGrammar.builtin.table.conflicts = [] := by
    show PreparedGrammar.builtin.normalized.table.conflicts = []
    rw [hnormalized, Grammar.conflicts_expanded]
  have hε : PreparedGrammar.builtin.normalized.isNonterminal epsilon = false := by
    rw [hnormalized, Grammar.isNonterminal_epsilon_expanded]
  have hsymbols : ((tokenize source).1.map Terminal.ofToken).map (·.symbol) =
      (tokenize source).1.map (·.category.name) := by
    rw [List.map_map]
    rfl
  rw [parseTokens, parse_accepts_iff rfl hconflicts hε, hsymbols, hnormalized]
  exact generates_expanded_iff (isWord_tokenize source)

end FrontEnd
