import FrontEnd.Compilation
import FrontEnd.Proofs.Lowering.Statement
import FrontEnd.Proofs.Parse.Soundness
import FrontEnd.Proofs.Program.OfDerivation
import FrontEnd.Proofs.Program.ToDerivation
import FrontEnd.Proofs.Token.Values

/-! # Compiling keeps the meaning

* `Program.Reads.eq_programs`: the leaves of a derivation can be read in one way only.
* `exists_reads_implements`: a source text without faults has a reading that its code carries out.
* `compile_terminates_iff`: the code and the program come to the same end.
-/

namespace FrontEnd
set_option autoImplicit false

open Grammar (expanded)

/-! ## One reading -/

theorem Tree.IsRegular.skeleton_eq {tree other : Tree} (ht : tree.IsRegular)
    (ho : other.IsDerivation expanded) (hs : tree.symbol = "Program")
    (hs' : other.symbol = "Program") (hl : other.leaves expanded = tree.leaves expanded) :
    other.skeleton expanded = tree.skeleton expanded := by
  refine skeleton_eq_of_outline_eq ?_ hl
  refine ht.derivation.outline_eq_of_word_eq Grammar.conflicts_expanded
    Grammar.isNonterminal_epsilon_expanded ho hs (hs'.trans hs.symm) ?_
  rw [word, word, hl]

/-- What the leaves of a derivation are read as is the program of the derivation. -/
theorem Program.Reads.eq_programs {tree : Tree} (ht : tree.IsRegular)
    (hs : tree.symbol = "Program") {p : Program} (h : Reads (tree.leaves expanded) p) :
    p = Statement.programs (Statement.listOfTree tree) := by
  obtain ⟨other, hy, hmean⟩ := h.written ht.lexical
  have hregular : other.IsRegular :=
    ⟨hy.derivation, fun t hm => ht.lexical t (hy.leaves ▸ hm)⟩
  obtain ⟨q, -, hq, hq'⟩ := (Tree.statementRead_of_isRegular hregular).program hy.symbol
  obtain ⟨r, -, hr, hr'⟩ := (Tree.statementRead_of_isRegular ht).program hs
  rw [ht.skeleton_eq hy.derivation hs hy.symbol hy.leaves] at hq'
  unfold Statement.ProgramMeans at hmean hq hq' hr hr'
  rw [hr, ← hmean, hq, ← hq', hr']

/-! ## Source texts without faults -/

theorem errors_of_diagnostics {g : PreparedGrammar} {source : String}
    (h : (compile g source).diagnostics = []) :
    (compile g source).parsed.errors = [] ∧ (compile g source).lowered.errors = [] := by
  rw [Compilation.diagnostics, List.append_eq_nil_iff, List.append_eq_nil_iff, List.map_eq_nil_iff,
    List.map_eq_nil_iff, List.map_eq_nil_iff] at h
  exact ⟨h.1.2, h.2⟩

section
variable {source : String} (hclean : (compile .builtin source).diagnostics = [])
  (hnames : ∀ token ∈ (tokenize source).1, token.category = .identifier →
    isTemporaryName token.lexeme = false)
include hclean hnames

/-- The parse tree is a derivation of the tokens. -/
theorem isRegular_parsed :
    (compile .builtin source).parsed.tree.IsRegular ∧
      (compile .builtin source).parsed.tree.symbol = "Program" ∧
      (compile .builtin source).parsed.tree.leaves expanded =
        (tokenize source).1.map .ofToken := by
  obtain ⟨hd, hs, hl⟩ := isDerivation_builtin (errors_of_diagnostics hclean).1
  refine ⟨⟨hd, fun t ht => ?_⟩, hs, hl⟩
  have ht' : t ∈ (tokenize source).1.map .ofToken := hl ▸ ht
  obtain ⟨token, hm, rfl⟩ := List.mem_map.1 ht'
  exact isLexical_of_mem_tokenize hm (hnames token hm)

/-- A source text has exactly one reading, and the code carries it out. -/
theorem exists_reads_implements :
    ∃ p, Program.Reads ((tokenize source).1.map .ofToken) p ∧
      (∀ q, Program.Reads ((tokenize source).1.map .ofToken) q → q = p) ∧ p.Proper ∧
      ∀ (V : Type) (M : Interpretation V),
        Implements M (compile .builtin source).lowered.code 1
          (compile .builtin source).lowered.nextLine p := by
  obtain ⟨hregular, hs, hl⟩ := isRegular_parsed hclean hnames
  obtain ⟨p, hreads, hmean, -⟩ := (Tree.statementRead_of_isRegular hregular).program hs
  have hproper := hreads.proper hregular.lexical
  rw [hl] at hreads
  refine ⟨p, hreads, fun q hq => ?_, hproper, fun V M => ?_⟩
  · rw [← hl] at hq
    rw [hq.eq_programs hregular hs, hmean]
  · obtain rfl := hmean
    exact Statement.areImplemented _ .initial hproper (errors_of_diagnostics hclean).2
      fun _ _ _ => rfl

end

/-- For a source text without faults, in which no identifier is a `t` and digits, the tokens can be
read in exactly one way, and executing the code from line 1 is executing this program, whatever
literals, operators and conditions mean: both end or go on for ever, and where they end, the stores
agree on all that is not a temporary. The code can only stop behind its last line. -/
theorem compile_terminates_iff (source : String)
    (hclean : (compile .builtin source).diagnostics = [])
    (hnames : ∀ token ∈ (tokenize source).1, token.category = .identifier →
      isTemporaryName token.lexeme = false) :
    ∃ p, Program.Reads ((tokenize source).1.map .ofToken) p ∧
      (∀ q, Program.Reads ((tokenize source).1.map .ofToken) q → q = p) ∧
      ∀ (V : Type) (M : Interpretation V) (σ : Store V),
        (∀ τ, Exec M p σ τ ↔
          (∃ τ', (compile .builtin source).lowered.code.Terminates M σ τ' ∧ τ'.Agree τ) ∧
            ∀ name, isTemporaryName name = true → τ name = σ name) ∧
        ∀ n last, (compile .builtin source).lowered.code.Runs M n ⟨1, σ⟩ last →
          (compile .builtin source).lowered.code.step? M last = none →
          last.line = (compile .builtin source).lowered.code.nextLine := by
  obtain ⟨p, hreads, hunique, hproper, himplements⟩ := exists_reads_implements hclean hnames
  refine ⟨p, hreads, hunique, fun V M σ => ⟨fun τ => ⟨fun h => ?_, fun h => ?_⟩, ?_⟩⟩
  · obtain ⟨n, τ', hruns, hagree⟩ := (himplements V M).forward (.refl σ) h
    exact ⟨⟨τ', ⟨n, hruns⟩, hagree⟩, fun name hn => h.eq_of_isTemporaryName hproper hn⟩
  · obtain ⟨⟨τ', ⟨n, hruns⟩, hagree⟩, hkeep⟩ := h
    obtain ⟨m, σ', ρ, -, hexec, hρ, hrest⟩ :=
      (himplements V M).backward (.refl σ) hruns (Code.step?_nextLine M _ τ')
    obtain ⟨-, rfl⟩ := Machine.mk.inj (hrest.eq_of_stopped (Code.step?_nextLine M _ σ'))
    have hτ : τ = ρ := by
      funext name
      cases hn : isTemporaryName name
      · rw [← hagree name hn, hρ name hn]
      · rw [hkeep name hn, hexec.eq_of_isTemporaryName hproper hn]
    rw [hτ]
    exact hexec
  · intro n last hruns hstop
    obtain ⟨m, σ', ρ, -, -, -, hrest⟩ := (himplements V M).backward (.refl σ) hruns hstop
    rw [hrest.eq_of_stopped (Code.step?_nextLine M _ σ')]
    rfl

def countToThree : String := "int x = 0; while (x < 3) { x = x + 1; }"

theorem compile_terminates_iff_countToThree :
    (compile .builtin countToThree).diagnostics = [] ∧
      ∃ p, Program.Reads ((tokenize countToThree).1.map .ofToken) p ∧
        ∀ (V : Type) (M : Interpretation V) (σ τ : Store V), Exec M p σ τ →
          ∃ τ', (compile .builtin countToThree).lowered.code.Terminates M σ τ' ∧ τ'.Agree τ := by
  have hclean : (compile .builtin countToThree).diagnostics = [] := by decide +kernel
  obtain ⟨p, hreads, -, h⟩ := compile_terminates_iff countToThree hclean (by decide +kernel)
  exact ⟨hclean, p, hreads, fun V M σ τ hexec => (((h V M σ).1 τ).1 hexec).1⟩

end FrontEnd
