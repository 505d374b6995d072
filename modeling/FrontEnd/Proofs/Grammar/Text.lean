import FrontEnd.Grammar.Text
import FrontEnd.Proofs.Text.Split

/-! # Grammar texts and rules

A rule can be read back from its line just if its symbols are words and its left side holds no
arrow. Rules that were read are of this kind.

* `Rule.IsWritable`: the rules that can be read back.
* `Rule.isWritable_of_ofLine?`, `Rule.ofLine?_text`: reading gives such rules, and finds them again.
* `Rule.ofLine?_append_return`: a carriage return at the end of a line does not matter.
* `readRules_rulesText_eq_iff`: a list of rules can be read back just if each of them can.
-/

namespace FrontEnd
set_option autoImplicit false

namespace Rule

structure IsWritable (rule : Rule) : Prop where
  left : Text.IsWord rule.left.toList
  arrow : ¬ Text.arrow <:+: rule.left.toList
  right_ne : rule.right ≠ []
  right : ∀ symbol ∈ rule.right, Text.IsWord symbol.toList

variable {rule : Rule}

/-! ## Lines -/

theorem ofLine?_eq_some_iff {line : List Char} :
    ofLine? line = some rule ↔
      ∃ before after, Text.cutAtArrow? line = some (before, after) ∧
        Text.IsWord (Text.trim before) ∧ Text.words after ≠ [] ∧
        rule = ⟨String.ofList (Text.trim before), (Text.words after).map String.ofList⟩ := by
  unfold ofLine?
  cases hcut : Text.cutAtArrow? line with
  | none => simp
  | some sides =>
    obtain ⟨before, after⟩ := sides
    have hguard : ((Text.trim before).isEmpty || (Text.words after).isEmpty ||
        (Text.trim before).any Text.isBlank) = false ↔
          Text.IsWord (Text.trim before) ∧ Text.words after ≠ [] := by
      simp only [Bool.or_eq_false_iff, List.isEmpty_eq_false_iff, List.any_eq_false,
        Bool.not_eq_true, Text.IsWord]
      exact and_right_comm
    rw [Option.bind_eq_bind, Option.bind_some]
    constructor
    · intro h
      dsimp only at h
      split at h
      · exact absurd h (by simp)
      · rename_i hno
        obtain ⟨hleft, hright⟩ := hguard.1 (Bool.eq_false_iff.2 hno)
        exact ⟨before, after, rfl, hleft, hright, (Option.some.inj h).symm⟩
    · rintro ⟨_, _, he, hleft, hright, rfl⟩
      obtain ⟨rfl, rfl⟩ := Prod.mk.inj (Option.some.inj he)
      exact if_neg (by simp [hguard.2 ⟨hleft, hright⟩])

theorem isWritable_of_ofLine? {line : List Char} (h : ofLine? line = some rule) :
    rule.IsWritable := by
  obtain ⟨before, after, hcut, hleft, hright, rfl⟩ := ofLine?_eq_some_iff.1 h
  have harrow := (Text.cutAtArrow?_eq_some_iff.1 hcut).2
  refine ⟨by simpa using hleft, ?_, by simpa using hright, fun symbol hm => ?_⟩
  · rw [String.toList_ofList]
    exact fun hin => harrow (hin.trans (Text.trim_infix before))
  · obtain ⟨word, hword, rfl⟩ := List.mem_map.1 hm
    rw [String.toList_ofList]
    exact Text.isWord_of_mem_words hword

theorem toList_text (rule : Rule) :
    rule.text.toList = rule.left.toList ++ [' '] ++ Text.arrow ++
      ' ' :: [' '].intercalate (rule.right.map String.toList) := by
  simp [text, Text.arrow]

theorem ofLine?_text (h : rule.IsWritable) : ofLine? rule.text.toList = some rule := by
  have hwords : Text.words (' ' :: [' '].intercalate (rule.right.map String.toList)) =
      rule.right.map String.toList := by
    rw [← List.nil_append (' ' :: _), Text.words_append_blank (by decide),
      Text.words_intercalate (List.forall_mem_map.2 h.right)]
    rfl
  have harrow : ¬ Text.arrow <:+: rule.left.toList ++ [' '] :=
    Text.not_arrow_infix_append h.arrow (by decide) (Or.inr (by decide))
  refine ofLine?_eq_some_iff.2
    ⟨rule.left.toList ++ [' '], ' ' :: [' '].intercalate (rule.right.map String.toList),
      Text.cutAtArrow?_eq_some_iff.2 ⟨toList_text rule, harrow⟩, ?_, ?_, ?_⟩
  · rw [Text.trim_append_space h.left]
    exact h.left
  · rw [hwords]
    simpa using h.right_ne
  · rw [Text.trim_append_space h.left, hwords]
    simp

/-- A carriage return at the end of a line is a blank behind the rule. -/
theorem ofLine?_append_return (line : List Char) : ofLine? (line ++ ['\r']) = ofLine? line := by
  have hwords : ∀ after, Text.words (after ++ ['\r']) = Text.words after := fun after => by
    rw [Text.words_append_blank (by decide)]
    exact List.append_nil _
  refine Option.ext fun rule => ?_
  rw [ofLine?_eq_some_iff, ofLine?_eq_some_iff]
  constructor
  · rintro ⟨before, after, hcut, hleft, hright, rfl⟩
    obtain ⟨hline, harrow⟩ := Text.cutAtArrow?_eq_some_iff.1 hcut
    rcases List.eq_nil_or_concat after with rfl | ⟨rest, c, rfl⟩
    · exact absurd rfl hright
    · rw [List.concat_eq_append] at hright hline ⊢
      rw [← List.append_assoc] at hline
      obtain ⟨rfl, hc⟩ := List.append_inj' hline rfl
      obtain rfl := List.singleton_inj.1 hc
      rw [hwords] at hright ⊢
      exact ⟨before, rest, Text.cutAtArrow?_eq_some_iff.2 ⟨rfl, harrow⟩, hleft, hright, rfl⟩
  · rintro ⟨before, after, hcut, hleft, hright, rfl⟩
    obtain ⟨rfl, harrow⟩ := Text.cutAtArrow?_eq_some_iff.1 hcut
    have hcut := Text.cutAtArrow?_eq_some_iff.2 ⟨List.append_assoc _ after ['\r'], harrow⟩
    rw [← hwords after] at hright ⊢
    exact ⟨before, after ++ ['\r'], hcut, hleft, hright, rfl⟩

end Rule

/-! ## Texts -/

theorem isWritable_of_mem_readRules {text : String} {rule : Rule} (h : rule ∈ readRules text) :
    rule.IsWritable := by
  obtain ⟨line, -, hline⟩ := List.mem_filterMap.1 h
  exact Rule.isWritable_of_ofLine? hline

/-- No line break comes into the line of a rule. -/
theorem Rule.IsWritable.newline_not_mem_text {rule : Rule} (h : rule.IsWritable) :
    '\n' ∉ rule.text.toList := by
  have hword : ∀ {w}, Text.IsWord w → '\n' ∉ w := fun hw hm => absurd (hw.2 _ hm) (by decide)
  have hright : '\n' ∉ [' '].intercalate (rule.right.map String.toList) :=
    Text.not_mem_intercalate (by decide)
      (List.forall_mem_map.2 fun symbol hm => hword (h.right symbol hm))
  simp [Rule.toList_text, Text.arrow, hword h.left, hright]

theorem readRules_of_isWritable {rules : List Rule} (h : ∀ rule ∈ rules, rule.IsWritable) :
    readRules (rulesText rules) = rules := by
  induction rules with
  | nil => rfl
  | cons rule rules ih =>
    obtain ⟨hrule, hlater⟩ := List.forall_mem_cons.1 h
    have htext : (rulesText (rule :: rules)).toList =
        rule.text.toList ++ '\n' :: (rulesText rules).toList := by
      simp [rulesText]
    rw [readRules, htext, Text.lines_append hrule.newline_not_mem_text, List.filterMap_cons,
      Rule.ofLine?_text hrule]
    exact congrArg (rule :: ·) (ih hlater)

/-- A list of rules can be read back from its text just if each of its rules can. -/
theorem readRules_rulesText_eq_iff {rules : List Rule} :
    readRules (rulesText rules) = rules ↔ ∀ rule ∈ rules, rule.IsWritable := by
  refine ⟨fun h rule hr => ?_, readRules_of_isWritable⟩
  rw [← h] at hr
  exact isWritable_of_mem_readRules hr

/-- Rules that were read can be written and read again, and so can all that have a word on the left,
free of arrows, and words on the right. Lines may end in a carriage return as well. -/
theorem readRules_rulesText (text : String) (rules : List Rule) (line : List Char) :
    (∀ rule ∈ readRules text, rule.IsWritable) ∧
      (readRules (rulesText rules) = rules ↔ ∀ rule ∈ rules, rule.IsWritable) ∧
      readRules (rulesText (readRules text)) = readRules text ∧
      Rule.ofLine? (line ++ ['\r']) = Rule.ofLine? line :=
  ⟨fun _ => isWritable_of_mem_readRules, readRules_rulesText_eq_iff,
    readRules_of_isWritable fun _ => isWritable_of_mem_readRules, Rule.ofLine?_append_return line⟩

/-- A left side that ends in a dash, an arrow on the right, a line separator that ends no line, and
a line that holds no rule. -/
theorem readRules_rulesText_dashes :
    readRules "A- -> -> b\r\nx y -> c\n>\u2028->\u3000d" = [⟨"A-", ["->", "b"]⟩, ⟨">", ["d"]⟩] ∧
      Rule.IsWritable ⟨"A-", ["->", "b"]⟩ ∧
      readRules (rulesText [⟨"A-", ["->", "b"]⟩, ⟨">", ["d"]⟩]) =
        [⟨"A-", ["->", "b"]⟩, ⟨">", ["d"]⟩] := by
  have hread : readRules "A- -> -> b\r\nx y -> c\n>\u2028->\u3000d" =
      [⟨"A-", ["->", "b"]⟩, ⟨">", ["d"]⟩] := by
    decide +kernel
  obtain ⟨hwritable, -, hagain, -⟩ :=
    readRules_rulesText "A- -> -> b\r\nx y -> c\n>\u2028->\u3000d" [] []
  rw [hread] at hwritable hagain
  exact ⟨hread, hwritable _ List.mem_cons_self, hagain⟩

end FrontEnd
