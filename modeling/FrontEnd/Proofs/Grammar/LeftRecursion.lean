import FrontEnd.Grammar.LeftRecursion
import FrontEnd.Proofs.Grammar.Valuation

/-! # Removing left recursion keeps the language

The rules of one symbol `A` become right-recursive with a fresh tail `A'`. Read the tail as the
words that may follow those of `A`, or `A` as the words that may precede those of its tail: either
way the rules of the other side hold, and no derivation has to be turned around.

* `IsTail`: a name is fit to be the tail of a symbol.
* `IsTail.models_readTail`, `IsTail.models_readHead`: the two readings are models.
* `IsTail.wordsOf_rightRecursive`: replacing the rules of one symbol keeps the words of every symbol
  but the tail.
* `Progress`: what holds while the rules are gone through.
* `wordsOf_removeLeftRecursion`: all replacements keep the words of every symbol that was there.
-/

namespace FrontEnd
set_option autoImplicit false

/-! ## The rules of one symbol -/

theorem Rule.isLeftRecursive_iff {rule : Rule} :
    rule.isLeftRecursive = true ↔ ∃ rest, rule.right = rule.left :: rest := by
  obtain ⟨left, right⟩ := rule
  cases right with
  | nil => simp [Rule.isLeftRecursive]
  | cons first rest => simp [Rule.isLeftRecursive]

theorem Rule.toTail?_eq_some_iff {left tail : Symbol} {rest : List Symbol} {rule : Rule} :
    Rule.toTail? tail ⟨left, left :: rest⟩ = some rule ↔
      (∃ symbol ∈ rest, symbol ≠ epsilon) ∧ rule = ⟨tail, rest ++ [tail]⟩ := by
  rw [Rule.toTail?, List.tail_cons]
  by_cases h : rest.all (· == epsilon) = true
  · rw [if_pos h]
    simpa using fun symbol hm hne => absurd (List.all_eq_true.1 h symbol hm) (by simpa using hne)
  · rw [if_neg h, Option.some.injEq, eq_comm, iff_and_self]
    exact fun _ => by simpa using h

theorem mem_rightRecursive {members : List Rule} {tail : Symbol} {rule : Rule} :
    rule ∈ rightRecursive members tail ↔
      (∃ member ∈ members, member.isLeftRecursive = false ∧ member.withTail tail = rule) ∨
        (∃ member ∈ members, member.isLeftRecursive = true ∧ member.toTail? tail = some rule) ∨
        rule = ⟨tail, [epsilon]⟩ := by
  simp only [rightRecursive, List.mem_append, List.mem_map, List.mem_filterMap, List.mem_filter,
    List.mem_singleton, Bool.not_eq_true', and_assoc, or_assoc]

/-- `members` are the rules of `left`, and nothing uses the name `tail` yet. -/
structure IsTail (others members : List Rule) (alphabet : Set Symbol) (left tail : Symbol) :
    Prop where
  left_eq : ∀ rule ∈ members, rule.left = left
  left_ne : ∀ rule ∈ others, rule.left ≠ left
  fresh : tail ∉ symbolsOf (others ++ members)
  ne_left : tail ≠ left
  ne_epsilon : tail ≠ epsilon
  tail_not_mem : tail ∉ alphabet
  left_not_mem : left ∉ alphabet
  epsilon_not_mem : epsilon ∉ alphabet

/-! ## Readings of a symbol and its tail -/

section
variable (rules : List Rule) (alphabet : Set Symbol) (left tail : Symbol)

/-- The words that may follow those of `left`. Nothing is asked of them if `left` is `ε`, as its
rules are never used. -/
def tailWords : Language Symbol :=
  {word | left ≠ epsilon → ∀ first ∈ wordsOf rules alphabet left,
    first ++ word ∈ wordsOf rules alphabet left}

/-- The words of `left` that may precede those of `tail`. -/
def headWords : Language Symbol :=
  {word | word ∈ wordsOf rules alphabet left ∧ (left ≠ epsilon →
    ∀ last ∈ wordsOf rules alphabet tail, word ++ last ∈ wordsOf rules alphabet left)}

/-- The derived words, but the tail stands for what may follow `left`. -/
def readTail : Valuation :=
  Function.update (wordsOf rules alphabet) tail (tailWords rules alphabet left)

/-- The derived words, but `left` stands for what may precede its tail. -/
def readHead : Valuation :=
  Function.update (wordsOf rules alphabet) left (headWords rules alphabet left tail)

end

section
variable {rules : List Rule} {alphabet : Set Symbol} {left tail : Symbol}

theorem readTail_tail : readTail rules alphabet left tail tail = tailWords rules alphabet left :=
  Function.update_self ..

theorem readTail_of_ne {symbol : Symbol} (h : symbol ≠ tail) :
    readTail rules alphabet left tail symbol = wordsOf rules alphabet symbol :=
  Function.update_of_ne h ..

theorem readHead_left :
    readHead rules alphabet left tail left = headWords rules alphabet left tail :=
  Function.update_self ..

theorem readHead_of_ne {symbol : Symbol} (h : symbol ≠ left) :
    readHead rules alphabet left tail symbol = wordsOf rules alphabet symbol :=
  Function.update_of_ne h ..

theorem readHead_le (symbol : Symbol) :
    readHead rules alphabet left tail symbol ≤ wordsOf rules alphabet symbol := by
  by_cases hs : symbol = left
  · rw [hs, readHead_left]
    exact fun word hword => hword.1
  · rw [readHead_of_ne hs]

theorem language_readHead_le (text : List Symbol) :
    (readHead rules alphabet left tail).language text ≤ (wordsOf rules alphabet).language text :=
  Valuation.language_mono fun symbol _ => readHead_le symbol

/-- The language of a text with the tail behind it. -/
theorem language_readTail_append (text : List Symbol) (h : tail ∉ text) :
    (readTail rules alphabet left tail).language (text ++ [tail]) =
      (wordsOf rules alphabet).language text * tailWords rules alphabet left := by
  rw [Valuation.language_append, readTail, Valuation.language_update h,
    Valuation.language_cons, Valuation.language_nil, mul_one, Function.update_self]

end

/-! ## One replacement -/

namespace IsTail
variable {others members : List Rule} {alphabet : Set Symbol} {left tail : Symbol}

theorem not_mem_right (h : IsTail others members alphabet left tail) {rule : Rule}
    (hr : rule ∈ members) : tail ∉ rule.right := fun hm =>
  h.fresh (mem_symbolsOf_of_mem_right (List.mem_append_right others hr) hm)

/-- The new rules are for the symbol and its tail. -/
theorem left_eq_or_not_mem (h : IsTail others members alphabet left tail) {symbols : List Symbol}
    (htail : tail ∉ symbols) :
    ∀ rule ∈ rightRecursive members tail, rule.left = left ∨ rule.left ∉ symbols := by
  intro rule hr
  rcases mem_rightRecursive.1 hr with ⟨member, hm, -, rfl⟩ | ⟨member, hm, -, hsome⟩ | rfl
  · exact Or.inl (h.left_eq member hm)
  · right
    unfold Rule.toTail? at hsome
    split at hsome
    · simp at hsome
    · rw [← Option.some.inj hsome]
      exact htail
  · exact Or.inr htail

/-! ### From the new rules to the old -/

/-- `A -> β A'`: what follows a word of `β` follows a word of `A`. -/
theorem language_withTail_le (h : IsTail others members alphabet left tail) {rule : Rule}
    (hr : rule ∈ members) (hne : left ≠ epsilon) :
    (readTail (others ++ members) alphabet left tail).language (rule.withTail tail).right ≤
      wordsOf (others ++ members) alphabet left := by
  have hnot : tail ∉ rule.right.filter (· != epsilon) := fun hin =>
    h.not_mem_right hr (List.mem_of_mem_filter hin)
  have hrule := (models_wordsOf (others ++ members) alphabet).rule rule
    (List.mem_append_right others hr) (h.left_eq rule hr ▸ hne)
  rw [h.left_eq rule hr] at hrule
  intro word hword
  rw [Rule.withTail, language_readTail_append _ hnot,
    Valuation.language_filter (wordsOf_epsilon h.epsilon_not_mem)] at hword
  obtain ⟨first, hf, last, hl, rfl⟩ := Language.mem_mul.1 hword
  exact hl hne first (hrule hf)

/-- `A' -> α A'`: a word of `α` leads from a word of `A` to another. -/
theorem language_toTail_le (h : IsTail others members alphabet left tail) {rest : List Symbol}
    (hr : ⟨left, left :: rest⟩ ∈ members) :
    (readTail (others ++ members) alphabet left tail).language (rest ++ [tail]) ≤
      tailWords (others ++ members) alphabet left := by
  have hnot : tail ∉ rest := fun hin => h.not_mem_right hr (List.mem_cons_of_mem left hin)
  intro word hword
  rw [language_readTail_append _ hnot] at hword
  obtain ⟨a, ha, b, hb, rfl⟩ := Language.mem_mul.1 hword
  intro hne first hfirst
  have hstep : first ++ a ∈ wordsOf (others ++ members) alphabet left :=
    (models_wordsOf (others ++ members) alphabet).rule _ (List.mem_append_right others hr) hne
      (Language.append_mem_mul hfirst ha)
  rw [← List.append_assoc]
  exact hb hne (first ++ a) hstep

theorem nil_mem_tailWords (rules : List Rule) : [] ∈ tailWords rules alphabet left := by
  intro _ first hfirst
  rwa [List.append_nil]

/-- Under the old words, with the tail read as what may follow, the new rules hold. -/
theorem models_readTail (h : IsTail others members alphabet left tail) :
    (readTail (others ++ members) alphabet left tail).Models
      (others ++ rightRecursive members tail) alphabet := by
  have hold := (models_wordsOf (others ++ members) alphabet).update h.fresh h.ne_epsilon
    h.tail_not_mem (tailWords (others ++ members) alphabet left)
  refine ⟨hold.letter, hold.vanish, fun rule hr hne => ?_⟩
  rcases List.mem_append.1 hr with hr | hr
  · exact hold.rule rule (List.mem_append_left members hr) hne
  rcases mem_rightRecursive.1 hr with ⟨member, hm, -, rfl⟩ | ⟨member, hm, hrec, htail⟩ | rfl
  · have hleft : (member.withTail tail).left = left := h.left_eq member hm
    rw [hleft, readTail_of_ne h.ne_left.symm]
    exact h.language_withTail_le hm (hleft ▸ hne)
  · obtain ⟨memberLeft, right⟩ := member
    obtain rfl : memberLeft = left := h.left_eq _ hm
    obtain ⟨rest, rfl⟩ : ∃ rest, right = memberLeft :: rest := Rule.isLeftRecursive_iff.1 hrec
    obtain ⟨-, rfl⟩ := Rule.toTail?_eq_some_iff.1 htail
    rw [readTail_tail]
    exact h.language_toTail_le hm
  · intro word hword
    rw [Valuation.language_cons, Valuation.language_nil, mul_one,
      readTail_of_ne h.ne_epsilon.symm, wordsOf_epsilon h.epsilon_not_mem] at hword
    rw [(Language.mem_one word).1 hword, readTail_tail]
    exact nil_mem_tailWords _

/-! ### From the old rules to the new -/

theorem nil_mem_wordsOf_tail (h : IsTail others members alphabet left tail) :
    [] ∈ wordsOf (others ++ rightRecursive members tail) alphabet tail := by
  have hw := models_wordsOf (others ++ rightRecursive members tail) alphabet
  have hr : ⟨tail, [epsilon]⟩ ∈ rightRecursive members tail :=
    mem_rightRecursive.2 (Or.inr (Or.inr rfl))
  refine hw.rule _ (List.mem_append_right others hr) h.ne_epsilon ?_
  rw [Valuation.language_cons, Valuation.language_nil, mul_one]
  exact hw.vanish

/-- A word of `β` before one of the tail is a word of `A`, for a rule `A -> β`. -/
theorem append_mem_wordsOf_left (h : IsTail others members alphabet left tail) {rule : Rule}
    (hr : rule ∈ members) (hrec : rule.isLeftRecursive = false) (hne : left ≠ epsilon)
    {word last : List Symbol}
    (hword : word ∈ (wordsOf (others ++ rightRecursive members tail) alphabet).language rule.right)
    (hlast : last ∈ wordsOf (others ++ rightRecursive members tail) alphabet tail) :
    word ++ last ∈ wordsOf (others ++ rightRecursive members tail) alphabet left := by
  have hr' : rule.withTail tail ∈ rightRecursive members tail :=
    mem_rightRecursive.2 (Or.inl ⟨rule, hr, hrec, rfl⟩)
  have hleft : (rule.withTail tail).left = left := h.left_eq rule hr
  have hrule := (models_wordsOf (others ++ rightRecursive members tail) alphabet).rule _
    (List.mem_append_right others hr') (hleft ▸ hne)
  rw [hleft] at hrule
  apply hrule
  rw [Rule.withTail, Valuation.language_append,
    Valuation.language_filter (wordsOf_epsilon h.epsilon_not_mem), Valuation.language_cons,
    Valuation.language_nil, mul_one]
  exact Language.append_mem_mul hword hlast

/-- A word of `α` before one of the tail is one of the tail, for a rule `A -> A α`. -/
theorem append_mem_wordsOf_tail (h : IsTail others members alphabet left tail)
    {rest : List Symbol} (hr : ⟨left, left :: rest⟩ ∈ members) {word last : List Symbol}
    (hword : word ∈ (wordsOf (others ++ rightRecursive members tail) alphabet).language rest)
    (hlast : last ∈ wordsOf (others ++ rightRecursive members tail) alphabet tail) :
    word ++ last ∈ wordsOf (others ++ rightRecursive members tail) alphabet tail := by
  have hw := models_wordsOf (others ++ rightRecursive members tail) alphabet
  by_cases hsome : ∃ symbol ∈ rest, symbol ≠ epsilon
  · have hr' : ⟨tail, rest ++ [tail]⟩ ∈ rightRecursive members tail :=
      mem_rightRecursive.2 (Or.inr (Or.inl ⟨_, hr, Rule.isLeftRecursive_iff.2 ⟨rest, rfl⟩,
        Rule.toTail?_eq_some_iff.2 ⟨hsome, rfl⟩⟩))
    refine hw.rule _ (List.mem_append_right others hr') h.ne_epsilon ?_
    rw [Valuation.language_append, Valuation.language_cons, Valuation.language_nil, mul_one]
    exact Language.append_mem_mul hword hlast
  · -- A rule `A -> A` has no counterpart, but its rest has only the empty word.
    have hnone : rest.filter (· != epsilon) = [] := by simpa using hsome
    rw [← Valuation.language_filter (wordsOf_epsilon h.epsilon_not_mem), hnone,
      Valuation.language_nil] at hword
    rwa [(Language.mem_one word).1 hword]

/-- Under the new words, with the symbol read as what may precede its tail, the old rules hold. -/
theorem models_readHead (h : IsTail others members alphabet left tail) :
    (readHead (others ++ rightRecursive members tail) alphabet left tail).Models
      (others ++ members) alphabet := by
  have hw := models_wordsOf (others ++ rightRecursive members tail) alphabet
  refine ⟨fun t ht => ?_, ?_, fun rule hr hne => ?_⟩
  · rw [readHead_of_ne (ne_of_mem_of_not_mem ht h.left_not_mem)]
    exact hw.letter t ht
  · by_cases he : epsilon = left
    · rw [← he, readHead_left]
      exact ⟨hw.vanish, fun hne => absurd rfl hne⟩
    · rw [readHead_of_ne he]
      exact hw.vanish
  rcases List.mem_append.1 hr with hr | hr
  · rw [readHead_of_ne (h.left_ne rule hr)]
    exact (language_readHead_le rule.right).trans
      (hw.rule rule (List.mem_append_left _ hr) hne)
  rw [h.left_eq rule hr] at hne ⊢
  rw [readHead_left]
  intro word hword
  -- The empty word of the tail shows that the word itself is one of `A`.
  suffices hall : ∀ last ∈ wordsOf (others ++ rightRecursive members tail) alphabet tail,
      word ++ last ∈ wordsOf (others ++ rightRecursive members tail) alphabet left by
    refine ⟨?_, fun _ => hall⟩
    have hnil := hall [] h.nil_mem_wordsOf_tail
    rwa [List.append_nil] at hnil
  intro last hlast
  cases hrec : rule.isLeftRecursive with
  | false => exact h.append_mem_wordsOf_left hr hrec hne (language_readHead_le _ hword) hlast
  | true =>
    obtain ⟨rest, hright⟩ := Rule.isLeftRecursive_iff.1 hrec
    obtain ⟨ruleLeft, right⟩ := rule
    obtain rfl : ruleLeft = left := h.left_eq _ hr
    obtain rfl : right = ruleLeft :: rest := hright
    rw [Valuation.language_cons, readHead_left] at hword
    obtain ⟨a, ha, b, hb, rfl⟩ := Language.mem_mul.1 hword
    rw [List.append_assoc]
    exact ha.2 hne _ (h.append_mem_wordsOf_tail hr (language_readHead_le _ hb) hlast)

/-- Making the rules of one symbol right-recursive changes the words of no symbol but the tail. -/
theorem wordsOf_rightRecursive (h : IsTail others members alphabet left tail) {symbol : Symbol}
    (hs : symbol ≠ tail) :
    wordsOf (others ++ rightRecursive members tail) alphabet symbol =
      wordsOf (others ++ members) alphabet symbol := by
  refine le_antisymm ?_ ((wordsOf_le h.models_readHead symbol).trans (readHead_le symbol))
  have hle := wordsOf_le h.models_readTail symbol
  rwa [readTail_of_ne hs] at hle

end IsTail

/-! ## All replacements -/

/-- Some rule of the symbol is left-recursive. -/
def needsTail (rules : List Rule) (symbol : Symbol) : Bool :=
  (rules.filter (·.left == symbol)).any Rule.isLeftRecursive

/-- The name that the tail of a symbol gets, with `out` written before. -/
def tailName (all out : List Rule) (symbol : Symbol) : Symbol :=
  freshName (symbolsOf all ++ symbolsOf out) (symbol.push '\x27')

/-- The rules `rest` that still stand for themselves: those of symbols that need no tail or have not
been met. -/
def pending (all seen rest : List Rule) : List Rule :=
  rest.filter fun rule => !needsTail all rule.left || !seen.any (·.left == rule.left)

section
variable {all seen out rest : List Rule} {rule other : Rule}

theorem needsTail_iff {symbol : Symbol} :
    needsTail all symbol = true ↔
      ∃ rule ∈ all, rule.left = symbol ∧ rule.isLeftRecursive = true := by
  simp only [needsTail, List.any_eq_true, List.mem_filter, beq_iff_eq, and_assoc]

theorem tailName_not_mem (all out : List Rule) (symbol : Symbol) :
    tailName all out symbol ∉ symbolsOf all :=
  fun h => freshName_not_mem _ _ (List.mem_append_left _ h)

theorem tailName_not_mem_written (all out : List Rule) (symbol : Symbol) :
    tailName all out symbol ∉ symbolsOf out :=
  fun h => freshName_not_mem _ _ (List.mem_append_right _ h)

theorem tailName_ne (all out : List Rule) (symbol : Symbol) {mark : Symbol} {c : Char}
    (hs : mark.toList = [c]) (hc : c ≠ '\x27') : tailName all out symbol ≠ mark :=
  freshName_ne hs hc fun he => absurd he (push_ne hs hc symbol)

theorem mem_pending :
    rule ∈ pending all seen rest ↔ rule ∈ rest ∧
      (needsTail all rule.left = true → ∀ met ∈ seen, met.left ≠ rule.left) := by
  rw [pending, List.mem_filter, Bool.or_eq_true, Bool.not_eq_true', Bool.not_eq_true',
    ← Bool.not_eq_true, ← imp_iff_not_or]
  simp

theorem mem_pending_cons_rest :
    other ∈ pending all seen (rule :: rest) ↔
      other = rule ∧ (needsTail all rule.left = true → ∀ met ∈ seen, met.left ≠ rule.left) ∨
        other ∈ pending all seen rest := by
  rw [mem_pending, mem_pending, List.mem_cons, or_and_right]
  refine or_congr_left (and_congr_right ?_)
  rintro rfl
  rfl

theorem mem_pending_cons_seen :
    other ∈ pending all (rule :: seen) rest ↔
      other ∈ pending all seen rest ∧
        (needsTail all other.left = true → rule.left ≠ other.left) := by
  rw [mem_pending, mem_pending, and_assoc, ← forall_and]
  simp only [List.forall_mem_cons, and_comm]

/-- A rule of a symbol that needs no tail goes from the pending ones to the written ones. -/
theorem mem_written_of_not_needsTail (h : needsTail all rule.left = false) :
    other ∈ out ++ [rule] ++ pending all (rule :: seen) rest ↔
      other ∈ out ++ pending all seen (rule :: rest) := by
  have hne : needsTail all other.left = true → rule.left ≠ other.left := fun hn he => by
    rw [he, hn] at h
    exact absurd h (by simp)
  rw [List.append_assoc, List.mem_append, List.mem_append, List.mem_append, List.mem_singleton,
    mem_pending_cons_seen, mem_pending_cons_rest, and_iff_left hne]
  simp only [h, Bool.false_eq_true, false_implies, and_true]

/-- A rule of a symbol that has got its tail is dropped. -/
theorem mem_pending_of_met (h : needsTail all rule.left = true)
    (hmet : ∃ met ∈ seen, met.left = rule.left) :
    other ∈ pending all (rule :: seen) rest ↔ other ∈ pending all seen (rule :: rest) := by
  obtain ⟨met, hm, hl⟩ := hmet
  rw [mem_pending_cons_seen, mem_pending_cons_rest]
  constructor
  · exact fun ho => Or.inr ho.1
  · rintro (⟨-, hp⟩ | ho)
    · exact absurd hl (hp h met hm)
    · exact ⟨ho, fun hn => hl ▸ (mem_pending.1 ho).2 hn met hm⟩

/-! ### What holds on the way -/

/-- The rules have been gone through up to `rest`, and what is written so far is for symbols that
have been met and for tails. -/
structure Progress (all seen out rest : List Rule) : Prop where
  mem_all : ∀ rule, rule ∈ all ↔ rule ∈ seen ∨ rule ∈ rest
  met_or_tail : ∀ rule ∈ out, (∃ met ∈ seen, met.left = rule.left) ∨ rule.left ∉ symbolsOf all

namespace Progress

theorem start (all : List Rule) : Progress all [] [] all := ⟨by simp, by simp⟩

/-- What is written on meeting a rule is for its symbol or for a tail. -/
theorem next (h : Progress all seen out (rule :: rest)) (more : List Rule)
    (hmore : ∀ other ∈ more, other.left = rule.left ∨ other.left ∉ symbolsOf all) :
    Progress all (rule :: seen) (out ++ more) rest := by
  refine ⟨fun other => ?_, fun other ho => ?_⟩
  · rw [h.mem_all other, List.mem_cons, List.mem_cons, or_left_comm, or_assoc]
  · rcases List.mem_append.1 ho with ho | ho
    · refine (h.met_or_tail other ho).imp_left ?_
      rintro ⟨met, hm, hl⟩
      exact ⟨met, List.mem_cons_of_mem rule hm, hl⟩
    · exact (hmore other ho).imp_left fun hl => ⟨rule, List.mem_cons_self, hl.symm⟩

theorem rule_mem (h : Progress all seen out (rule :: rest)) : rule ∈ all :=
  (h.mem_all rule).2 (Or.inr List.mem_cons_self)

/-- When a symbol that needs a tail is met, the current rules are its own and those of others. -/
theorem mem_current (h : Progress all seen out (rule :: rest))
    (hn : needsTail all rule.left = true) (hnew : ∀ met ∈ seen, met.left ≠ rule.left) :
    other ∈ (out ++ pending all (rule :: seen) rest) ++ all.filter (·.left == rule.left) ↔
      other ∈ out ++ pending all seen (rule :: rest) := by
  rw [List.append_assoc, List.mem_append, List.mem_append, List.mem_append,
    mem_pending_cons_seen, mem_pending_cons_rest, List.mem_filter, beq_iff_eq, h.mem_all,
    List.mem_cons]
  refine or_congr_right ⟨?_, ?_⟩
  · rintro (⟨ho, -⟩ | ⟨hm | rfl | hm, hl⟩)
    · exact Or.inr ho
    · exact absurd hl (hnew other hm)
    · exact Or.inl ⟨rfl, fun _ => hnew⟩
    · exact Or.inr (mem_pending.2 ⟨hm, fun _ => hl ▸ hnew⟩)
  · rintro (⟨rfl, -⟩ | ho)
    · exact Or.inr ⟨Or.inr (Or.inl rfl), rfl⟩
    · by_cases hl : other.left = rule.left
      · exact Or.inr ⟨Or.inr (Or.inr (mem_pending.1 ho).1), hl⟩
      · exact Or.inl ⟨ho, fun _ => Ne.symm hl⟩

/-- The fresh name is fit for the tail of a symbol that is met for the first time. -/
theorem isTail (h : Progress all seen out (rule :: rest))
    (hn : needsTail all rule.left = true) (hnew : ∀ met ∈ seen, met.left ≠ rule.left)
    {alphabet : Set Symbol} (halphabet : ∀ t ∈ alphabet, t ∈ terminalsOf all) :
    IsTail (out ++ pending all (rule :: seen) rest) (all.filter (·.left == rule.left)) alphabet
      rule.left (tailName all out rule.left) where
  left_eq other ho := by simpa using (List.mem_filter.1 ho).2
  left_ne other ho := by
    rcases List.mem_append.1 ho with ho | ho
    · rcases h.met_or_tail other ho with ⟨met, hm, hl⟩ | hl
      · exact hl ▸ hnew met hm
      · exact fun he => hl (he ▸ left_mem_symbolsOf h.rule_mem)
    · intro he
      exact (mem_pending_cons_seen.1 ho).2 (he ▸ hn) he.symm
  fresh hm := by
    obtain ⟨other, ho, hs⟩ := mem_symbolsOf.1 hm
    rw [List.mem_append, List.mem_append] at ho
    rcases ho with (ho | ho) | ho
    · exact tailName_not_mem_written all out _ (mem_symbolsOf.2 ⟨other, ho, hs⟩)
    · have hall := (h.mem_all other).2
        (Or.inr (List.mem_cons_of_mem rule (mem_pending.1 ho).1))
      exact tailName_not_mem all out _ (mem_symbolsOf.2 ⟨other, hall, hs⟩)
    · exact tailName_not_mem all out _ (mem_symbolsOf.2 ⟨other, (List.mem_filter.1 ho).1, hs⟩)
  ne_left he := tailName_not_mem all out rule.left (he.symm ▸ left_mem_symbolsOf h.rule_mem)
  ne_epsilon := tailName_ne all out rule.left rfl (by decide)
  tail_not_mem hm :=
    tailName_not_mem all out rule.left (mem_symbolsOf_of_mem_terminalsOf (halphabet _ hm))
  left_not_mem hm := (halphabet _ hm).2.2 rule h.rule_mem rfl
  epsilon_not_mem hm := epsilon_not_mem_terminalsOf (halphabet _ hm)

end Progress

/-! ### The run -/

theorem removeLeftRecursionFrom_copied (h : needsTail all rule.left = false) :
    removeLeftRecursionFrom all seen out (rule :: rest) =
      removeLeftRecursionFrom all (rule :: seen) (out ++ [rule]) rest := by
  rw [needsTail] at h
  simp only [removeLeftRecursionFrom, h, Bool.not_false, if_true]

theorem removeLeftRecursionFrom_dropped (h : needsTail all rule.left = true)
    (hmet : ∃ met ∈ seen, met.left = rule.left) :
    removeLeftRecursionFrom all seen out (rule :: rest) =
      removeLeftRecursionFrom all (rule :: seen) out rest := by
  have hany : seen.any (·.left == rule.left) = true := by simpa using hmet
  rw [needsTail] at h
  simp only [removeLeftRecursionFrom, h, hany, Bool.not_true, Bool.false_eq_true, if_false,
    if_true]

theorem removeLeftRecursionFrom_replaced (h : needsTail all rule.left = true)
    (hnew : ∀ met ∈ seen, met.left ≠ rule.left) :
    removeLeftRecursionFrom all seen out (rule :: rest) =
      removeLeftRecursionFrom all (rule :: seen)
        (out ++ rightRecursive (all.filter (·.left == rule.left))
          (tailName all out rule.left)) rest := by
  have hany : seen.any (·.left == rule.left) = false := by simpa using hnew
  rw [needsTail] at h
  simp only [removeLeftRecursionFrom, tailName, h, hany, Bool.not_true, Bool.false_eq_true,
    if_false]

namespace Progress
variable {alphabet : Set Symbol}

theorem wordsOf_copied (h : needsTail all rule.left = false) :
    wordsOf (out ++ [rule] ++ pending all (rule :: seen) rest) alphabet =
      wordsOf (out ++ pending all seen (rule :: rest)) alphabet :=
  wordsOf_congr fun _ => mem_written_of_not_needsTail h

theorem wordsOf_dropped (h : needsTail all rule.left = true)
    (hmet : ∃ met ∈ seen, met.left = rule.left) :
    wordsOf (out ++ pending all (rule :: seen) rest) alphabet =
      wordsOf (out ++ pending all seen (rule :: rest)) alphabet := by
  refine wordsOf_congr fun other => ?_
  rw [List.mem_append, List.mem_append, mem_pending_of_met h hmet]

theorem wordsOf_replaced (h : Progress all seen out (rule :: rest))
    (hn : needsTail all rule.left = true) (hnew : ∀ met ∈ seen, met.left ≠ rule.left)
    {tail : Symbol}
    (htail : IsTail (out ++ pending all (rule :: seen) rest) (all.filter (·.left == rule.left))
      alphabet rule.left tail)
    {symbol : Symbol} (hs : symbol ≠ tail) :
    wordsOf (out ++ rightRecursive (all.filter (·.left == rule.left)) tail ++
        pending all (rule :: seen) rest) alphabet symbol =
      wordsOf (out ++ pending all seen (rule :: rest)) alphabet symbol := by
  have hswap : ∀ other,
      other ∈ out ++ rightRecursive (all.filter (·.left == rule.left)) tail ++
          pending all (rule :: seen) rest ↔
        other ∈ out ++ pending all (rule :: seen) rest ++
          rightRecursive (all.filter (·.left == rule.left)) tail := by
    intro other
    simp only [List.mem_append, or_right_comm]
  calc wordsOf (out ++ rightRecursive (all.filter (·.left == rule.left)) tail ++
          pending all (rule :: seen) rest) alphabet symbol
      = wordsOf (out ++ pending all (rule :: seen) rest ++
          rightRecursive (all.filter (·.left == rule.left)) tail) alphabet symbol := by
        rw [wordsOf_congr hswap]
    _ = wordsOf (out ++ pending all (rule :: seen) rest ++
          all.filter (·.left == rule.left)) alphabet symbol := htail.wordsOf_rightRecursive hs
    _ = wordsOf (out ++ pending all seen (rule :: rest)) alphabet symbol := by
        rw [wordsOf_congr fun _ => h.mem_current hn hnew]

/-- Meeting a rule changes the words of no symbol that was there. -/
theorem step (h : Progress all seen out (rule :: rest))
    (halphabet : ∀ t ∈ alphabet, t ∈ terminalsOf all) :
    ∃ more, removeLeftRecursionFrom all seen out (rule :: rest) =
        removeLeftRecursionFrom all (rule :: seen) (out ++ more) rest ∧
      Progress all (rule :: seen) (out ++ more) rest ∧
      ∀ symbol ∈ symbolsOf all,
        wordsOf (out ++ more ++ pending all (rule :: seen) rest) alphabet symbol =
          wordsOf (out ++ pending all seen (rule :: rest)) alphabet symbol := by
  cases hn : needsTail all rule.left with
  | false =>
    refine ⟨[rule], removeLeftRecursionFrom_copied hn, h.next [rule] (by simp), ?_⟩
    exact fun symbol _ => congrFun (wordsOf_copied hn) symbol
  | true =>
    by_cases hmet : ∃ met ∈ seen, met.left = rule.left
    · refine ⟨[], ?_, h.next [] (by simp), ?_⟩
      · rw [List.append_nil, removeLeftRecursionFrom_dropped hn hmet]
      · rw [List.append_nil]
        exact fun symbol _ => congrFun (wordsOf_dropped hn hmet) symbol
    · have hnew : ∀ met ∈ seen, met.left ≠ rule.left := by simpa using hmet
      have htail := h.isTail hn hnew halphabet
      have hall := tailName_not_mem all out rule.left
      refine ⟨_, removeLeftRecursionFrom_replaced hn hnew,
        h.next _ (htail.left_eq_or_not_mem hall), fun symbol hs => ?_⟩
      exact h.wordsOf_replaced hn hnew htail (ne_of_mem_of_not_mem hs hall)

/-- Going through the rules keeps the words of every symbol that was there. -/
theorem wordsOf_removeLeftRecursionFrom (h : Progress all seen out rest)
    (halphabet : ∀ t ∈ alphabet, t ∈ terminalsOf all) {symbol : Symbol}
    (hs : symbol ∈ symbolsOf all) :
    wordsOf (removeLeftRecursionFrom all seen out rest) alphabet symbol =
      wordsOf (out ++ pending all seen rest) alphabet symbol := by
  induction rest generalizing seen out with
  | nil => rw [removeLeftRecursionFrom, pending, List.filter_nil, List.append_nil]
  | cons rule rest ih =>
    obtain ⟨more, he, hnext, hw⟩ := h.step halphabet
    rw [he, ih hnext, hw symbol hs]

end Progress

/-- Removing left recursion changes the words of no symbol that was there before. -/
theorem wordsOf_removeLeftRecursion {alphabet : Set Symbol}
    (halphabet : ∀ t ∈ alphabet, t ∈ terminalsOf all) {symbol : Symbol}
    (hs : symbol ∈ symbolsOf all) :
    wordsOf (removeLeftRecursion all) alphabet symbol = wordsOf all alphabet symbol := by
  rw [removeLeftRecursion, (Progress.start all).wordsOf_removeLeftRecursionFrom halphabet hs]
  refine congrFun (wordsOf_congr fun rule => ?_) symbol
  rw [List.nil_append, mem_pending]
  simp

/-- A left side derives the same words over the terminals before and after left recursion is
removed. -/
theorem derives_removeLeftRecursion_iff (rules : List Rule) {symbol : Symbol}
    (hsymbol : ∃ rule ∈ rules, rule.left = symbol) {word : List Symbol}
    (hword : ∀ t ∈ word, t ∈ terminalsOf rules) :
    Derives rules [symbol] word ↔ Derives (removeLeftRecursion rules) [symbol] word := by
  obtain ⟨rule, hr, rfl⟩ := hsymbol
  exact derives_iff_of_wordsOf_eq
    (wordsOf_removeLeftRecursion (fun _ ht => ht) (left_mem_symbolsOf hr)) hword

end

/-! ## Rows -/

/-- Rows of items, both written with left recursion. -/
def rows : List Rule :=
  [⟨"Row", ["Row", "Item", ","]⟩, ⟨"Row", [epsilon]⟩, ⟨"Item", ["Item", "a"]⟩, ⟨"Item", ["Item"]⟩,
    ⟨"Item", ["b"]⟩]

theorem derives_rows : Derives rows ["Row"] ["b", "a", ","] := by
  have hrow : Derives rows ["Row"] ["Row", "Item", ","] :=
    derives_right (show ⟨"Row", ["Row", "Item", ","]⟩ ∈ rows by decide) (by decide)
  have hempty : Derives rows ["Row"] [] :=
    (derives_right (show ⟨"Row", [epsilon]⟩ ∈ rows by decide) (by decide)).trans
      (derives_nil (by simp))
  have hitem : Derives rows ["Item"] ["b", "a"] :=
    (derives_right (show ⟨"Item", ["Item", "a"]⟩ ∈ rows by decide) (by decide)).trans
      ((derives_right (show ⟨"Item", ["b"]⟩ ∈ rows by decide) (by decide)).append
        (Derives.refl ["a"]))
  exact hrow.trans (hempty.append (hitem.append (Derives.refl [","])))

theorem derives_removeLeftRecursion_rows :
    (∀ t ∈ ["b", "a", ","], t ∈ terminalsOf rows) ∧
      Derives (removeLeftRecursion rows) ["Row"] ["b", "a", ","] :=
  ⟨by decide, (derives_removeLeftRecursion_iff rows ⟨⟨"Row", [epsilon]⟩, by decide, rfl⟩
    (by decide)).1 derives_rows⟩
end FrontEnd
