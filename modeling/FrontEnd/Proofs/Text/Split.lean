import FrontEnd.Text.Split

/-! # Putting texts together and cutting them

What the cuts at arrows, blanks and newlines give, and that they undo the joining.

* `arrow`, `cutAtArrow?_eq_some_iff`: a text is cut at its first arrow.
* `IsWord`, `isWord_of_mem_words`: words hold no blanks.
* `words_intercalate`, `trim_append_space`, `lines_append`: what was joined is found again.
-/

namespace FrontEnd.Text
set_option autoImplicit false

/-! ## Arrows -/

def arrow : List Char := ['-', '>']

/-- No arrow stands before the place where a text is cut. -/
theorem cutAtArrow?_eq_some_iff {text before after : List Char} :
    cutAtArrow? text = some (before, after) ↔
      text = before ++ arrow ++ after ∧ ¬ arrow <:+: before := by
  constructor
  · intro h
    fun_induction cutAtArrow? text generalizing before with
    | case1 => exact absurd h (by simp)
    | case2 rest =>
      obtain ⟨rfl, rfl⟩ := Prod.mk.inj (Option.some.inj h)
      exact ⟨rfl, by decide⟩
    | case3 c text hfirst ih =>
      obtain ⟨sides, hsides, he⟩ := Option.map_eq_some_iff.1 h
      obtain ⟨rfl, rfl⟩ := Prod.mk.inj he
      obtain ⟨htext, hbefore⟩ := ih hsides
      refine ⟨by rw [htext]; rfl, ?_⟩
      rw [List.infix_cons_iff, not_or]
      refine ⟨fun hfront => ?_, hbefore⟩
      obtain ⟨rfl, rest, hrest⟩ := List.cons_prefix_cons.1 hfront
      rw [← hrest] at htext
      exact hfirst _ rfl htext
  · rintro ⟨rfl, h⟩
    induction before with
    | nil => rfl
    | cons c before ih =>
      rw [List.infix_cons_iff, not_or] at h
      have hrest := ih h.2
      rw [List.cons_append, List.cons_append, cutAtArrow?, hrest]
      · rfl
      · rintro tail rfl htail
        cases before with
        | nil => exact absurd (List.cons.inj htail).1 (by decide)
        | cons d before =>
          obtain ⟨rfl, -⟩ := List.cons.inj htail
          exact h.1 (List.prefix_append arrow before)

theorem not_arrow_infix_append {s t : List Char} (hs : ¬ arrow <:+: s) (ht : ¬ arrow <:+: t)
    (h : s.getLast? ≠ some '-' ∨ t.head? ≠ some '>') : ¬ arrow <:+: s ++ t := by
  rw [List.infix_append_iff]
  rintro (hin | hin | ⟨front, back, he, hfront, hback⟩)
  · exact hs hin
  · exact ht hin
  · -- An arrow that is in neither part lies across the seam.
    match front, he with
    | [], he =>
      obtain rfl : back = arrow := he.symm
      exact ht hback.isInfix
    | [c], he =>
      obtain ⟨rfl, rfl⟩ : c = '-' ∧ back = ['>'] := by simpa [arrow, eq_comm] using he
      obtain ⟨before, rfl⟩ := hfront
      obtain ⟨after, rfl⟩ := hback
      exact h.elim (fun hlast => hlast (by simp)) (fun hhead => hhead rfl)
    | c :: d :: front, he =>
      obtain ⟨rfl, rfl, rfl, -⟩ : c = '-' ∧ d = '>' ∧ front = [] ∧ back = [] := by
        simpa [arrow, eq_comm] using he
      exact hs hfront.isInfix

/-! ## Words -/

def IsWord (w : List Char) : Prop := w ≠ [] ∧ ∀ c ∈ w, isBlank c = false

theorem IsWord.append {v w : List Char} (hv : IsWord v) (hw : IsWord w) : IsWord (v ++ w) :=
  ⟨List.append_ne_nil_of_left_ne_nil hv.1 w, List.forall_mem_append.2 ⟨hv.2, hw.2⟩⟩

theorem forall_mem_of_mem_splitOnP {p : Char → Bool} {s w : List Char} (h : w ∈ s.splitOnP p) :
    ∀ c ∈ w, p c = false := by
  induction s generalizing w with
  | nil =>
    obtain rfl : w = [] := by simpa using h
    simp
  | cons c s ih =>
    rw [List.splitOnP_cons_eq_if_modifyHead] at h
    split at h
    · rcases List.mem_cons.1 h with rfl | h
      · simp
      · exact ih h
    · rename_i hc
      obtain ⟨first, rest, hsplit⟩ := List.exists_cons_of_ne_nil (List.splitOnP_ne_nil p s)
      rw [hsplit, List.modifyHead_cons] at h
      rw [hsplit] at ih
      rcases List.mem_cons.1 h with rfl | h
      · exact List.forall_mem_cons.2 ⟨by simpa using hc, ih List.mem_cons_self⟩
      · exact ih (List.mem_cons_of_mem first h)

theorem isWord_of_mem_words {s w : List Char} (h : w ∈ words s) : IsWord w := by
  obtain ⟨hm, hne⟩ := List.mem_filter.1 h
  exact ⟨by simpa using hne, forall_mem_of_mem_splitOnP hm⟩

theorem words_append_blank {c : Char} (hc : isBlank c = true) (s t : List Char) :
    words (s ++ c :: t) = words s ++ words t := by
  rw [words, List.splitOnP_append_cons s t hc, List.filter_append, words, words]

theorem IsWord.words_eq {w : List Char} (h : IsWord w) : words w = [w] := by
  rw [words, List.splitOnP_eq_singleton h.2]
  simp [h.1]

theorem words_intercalate {ws : List (List Char)} (h : ∀ w ∈ ws, IsWord w) :
    words ([' '].intercalate ws) = ws := by
  induction ws with
  | nil => rfl
  | cons w ws ih =>
    obtain ⟨hw, hlater⟩ := List.forall_mem_cons.1 h
    cases ws with
    | nil => simpa using hw.words_eq
    | cons v ws =>
      rw [List.intercalate_cons_cons, List.append_assoc, List.singleton_append,
        words_append_blank (by decide), hw.words_eq, ih hlater]
      rfl

theorem not_mem_intercalate {c : Char} (hc : c ≠ ' ') {ws : List (List Char)}
    (h : ∀ w ∈ ws, c ∉ w) : c ∉ [' '].intercalate ws := by
  induction ws with
  | nil => exact List.not_mem_nil
  | cons w ws ih =>
    obtain ⟨hw, hlater⟩ := List.forall_mem_cons.1 h
    cases ws with
    | nil => simpa using hw
    | cons v ws => simpa [List.intercalate_cons_cons, hw, hc] using ih hlater

/-! ## Trimming -/

theorem dropWhile_isBlank_eq {s : List Char} (h : ∀ c ∈ s.head?, isBlank c = false) :
    s.dropWhile isBlank = s := by
  cases s with
  | nil => rfl
  | cons c s => exact List.dropWhile_cons_of_neg (by simp [h c rfl])

theorem trim_infix (s : List Char) : trim s <:+: s := by
  have hback := List.dropWhile_suffix isBlank (l := (s.dropWhile isBlank).reverse)
  rw [← List.reverse_prefix, List.reverse_reverse] at hback
  exact hback.isInfix.trans (List.dropWhile_suffix isBlank).isInfix

theorem trim_append_space {w : List Char} (h : IsWord w) : trim (w ++ [' ']) = w := by
  have hfront : (w ++ [' ']).dropWhile isBlank = w ++ [' '] := by
    refine dropWhile_isBlank_eq fun c hc => ?_
    rw [List.head?_append, List.head?_eq_some_head h.1, Option.some_or] at hc
    exact h.2 c (Option.some.inj hc ▸ List.head_mem h.1)
  have hback : w.reverse.dropWhile isBlank = w.reverse :=
    dropWhile_isBlank_eq fun c hc => h.2 c (List.mem_reverse.1 (List.mem_of_head? hc))
  rw [trim, hfront, List.reverse_append, List.reverse_singleton, List.singleton_append,
    List.dropWhile_cons_of_pos (by decide), hback, List.reverse_reverse]

/-! ## Lines -/

theorem lines_append {line : List Char} (h : '\n' ∉ line) (rest : List Char) :
    lines (line ++ '\n' :: rest) = line :: lines rest := by
  refine List.splitOnP_append_cons_of_forall_mem (fun c hc => ?_) '\n' rfl rest
  exact beq_eq_false_iff_ne.2 (ne_of_mem_of_not_mem hc h)

end FrontEnd.Text
