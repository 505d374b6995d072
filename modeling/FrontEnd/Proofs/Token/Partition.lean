import FrontEnd.Proofs.Token.LongestMatch

/-! # The partition of a source text

The scanner cuts a source text into segments without leaving anything out, and its tokens and
complaints are those of the segments, each on the line on which its segment starts.

* `Segment.Chosen`: which segment stands at the front of a text.
* `Segment.Fits`: what the segments look like.
* `exists_chosen_of_segments`: each segment is chosen for the text that starts with it.
* `Scanned`: how segments, tokens and complaints belong together.
* `foundFrom`: what the segments yield, each on the line on which its segment starts; tokens and
  complaints are two cases of it.
* `tokenize_partitions`: every source text is cut in this way.
* `tokenize_longest_match`: where a token starts, nothing longer could start.
-/

namespace FrontEnd
set_option autoImplicit false

/-! ## Comments -/

/-- A comment ends at the first `*/`. -/
theorem exists_of_throughCommentEnd? {s w : List Char} (h : throughCommentEnd? s = some w) :
    w <+: s ∧ ∃ body, w = body ++ ['*', '/'] ∧ ¬ ['*', '/'] <:+: body ++ ['*'] := by
  fun_induction throughCommentEnd? s generalizing w with
  | case1 => exact absurd h (by simp)
  | case2 rest =>
    obtain rfl := Option.some.inj h
    exact ⟨List.prefix_append ['*', '/'] rest, [], rfl, by decide⟩
  | case3 c s hfirst ih =>
    obtain ⟨w, hw, rfl⟩ := Option.map_eq_some_iff.1 h
    obtain ⟨hfront, body, rfl, hinside⟩ := ih hw
    refine ⟨(List.prefix_cons_inj c).2 hfront, c :: body, rfl, ?_⟩
    rw [List.cons_append, List.infix_cons_iff, not_or]
    refine ⟨fun hstart => ?_, hinside⟩
    -- The characters `*/` at the front would have ended the comment there.
    obtain ⟨rfl, hslash⟩ := List.cons_prefix_cons.1 hstart
    cases body with
    | nil => exact absurd hslash (by decide)
    | cons d body =>
      obtain ⟨rfl, -⟩ := List.cons_prefix_cons.1 hslash
      obtain ⟨rest, rfl⟩ := hfront
      exact hfirst _ rfl rfl

theorem not_infix_of_throughCommentEnd? {s : List Char} (h : throughCommentEnd? s = none) :
    ¬ ['*', '/'] <:+: s := by
  fun_induction throughCommentEnd? s with
  | case1 => decide
  | case2 rest => exact absurd h (by simp)
  | case3 c s hfirst ih =>
    rw [List.infix_cons_iff, not_or]
    refine ⟨fun hstart => ?_, ih (Option.map_eq_none_iff.1 h)⟩
    obtain ⟨rfl, rest, rfl⟩ := List.cons_prefix_cons.1 hstart
    exact hfirst rest rfl rfl

namespace Segment

/-- A comment stands where one of the two openers stands. -/
theorem comment?_eq_none_iff {s : List Char} :
    comment? s = none ↔ ¬ ['/', '/'] <+: s ∧ ¬ ['/', '*'] <+: s := by
  constructor
  · intro h
    constructor
    · rintro ⟨rest, rfl⟩
      exact absurd h (by simp [comment?])
    · rintro ⟨rest, rfl⟩
      simp only [List.cons_append, List.nil_append, comment?] at h
      split at h <;> exact absurd h (by simp)
  · rintro ⟨hline, hblock⟩
    unfold comment?
    split
    · exact absurd (List.prefix_append ['/', '/'] _) hline
    · exact absurd (List.prefix_append ['/', '*'] _) hblock
    · rfl

/-! ## The segment at the front -/

/-- Which segment stands at the front of a text, and why. -/
inductive Chosen (s : List Char) : Segment → Prop
  | newline {rest : List Char} (hs : s = '\n' :: rest) : Chosen s newline
  | blank {c : Char} {rest : List Char} (hs : s = c :: rest) (hb : Text.isBlank c = true)
      (hc : c ≠ '\n') : Chosen s (blank c)
  | lineComment {rest : List Char} (hs : s = '/' :: '/' :: rest) :
      Chosen s (lineComment ('/' :: '/' :: rest.takeWhile (· != '\n')))
  | blockComment {rest body : List Char} (hs : s = '/' :: '*' :: rest)
      (hb : throughCommentEnd? rest = some body) : Chosen s (blockComment ('/' :: '*' :: body))
  | openComment {rest : List Char} (hs : s = '/' :: '*' :: rest)
      (hb : throughCommentEnd? rest = none) : Chosen s (openComment ('/' :: '*' :: rest))
  | lexeme {l : Lexeme} (hc : comment? s = none) (hl : Lexeme.first? s = some l) :
      Chosen s (lexeme l)
  | unrecognized {c : Char} {rest : List Char} (hs : s = c :: rest) (hb : Text.isBlank c = false)
      (hc : comment? s = none) (hl : Lexeme.first? s = none) : Chosen s (unrecognized c)

theorem chosen_of_comment? {s : List Char} {segment : Segment} (h : comment? s = some segment) :
    Chosen s segment := by
  unfold comment? at h
  split at h
  · obtain rfl := Option.some.inj h
    exact .lineComment rfl
  · split at h
    · rename_i hb
      obtain rfl := Option.some.inj h
      exact .blockComment rfl hb
    · rename_i hb
      obtain rfl := Option.some.inj h
      exact .openComment rfl hb
  · exact absurd h (by simp)

theorem chosen_first (c : Char) (s : List Char) : Chosen (c :: s) (first c s) := by
  unfold first
  split
  · rename_i hc
    rw [beq_iff_eq.1 hc]
    exact .newline rfl
  · rename_i hc
    split
    · rename_i hb
      exact .blank rfl hb (by simpa using hc)
    · rename_i hb
      split
      · rename_i comment hcomment
        exact chosen_of_comment? hcomment
      · rename_i hcomment
        split
        · rename_i l hl
          exact .lexeme hcomment hl
        · rename_i hl
          exact .unrecognized rfl (by simpa using hb) hcomment hl

/-- What a segment looks like, with `rest` behind it. -/
def Fits (rest : List Char) : Segment → Prop
  | newline => True
  | blank c => Text.isBlank c = true ∧ c ≠ '\n'
  | lineComment text =>
    ∃ body, text = '/' :: '/' :: body ∧ '\n' ∉ body ∧ ∀ c ∈ rest.head?, c = '\n'
  | blockComment text =>
    ∃ body, text = '/' :: '*' :: (body ++ ['*', '/']) ∧ ¬ ['*', '/'] <:+: body ++ ['*']
  | openComment text => (∃ body, text = '/' :: '*' :: body ∧ ¬ ['*', '/'] <:+: body) ∧ rest = []
  | lexeme l => ∃ k : TokenClass, l.text ∈ k.language
  | unrecognized c => Text.isBlank c = false

namespace Chosen
variable {s : List Char} {segment : Segment}

theorem text_prefix (h : Chosen s segment) : segment.text <+: s := by
  cases h with
  | newline hs => exact hs ▸ List.prefix_append ['\n'] _
  | blank hs | unrecognized hs => exact hs ▸ List.prefix_append [_] _
  | lineComment hs =>
    rw [hs, text, List.prefix_cons_inj]
    exact prefix_cons_takeWhile _ _ _
  | blockComment hs hb =>
    rw [hs, text, List.prefix_cons_inj, List.prefix_cons_inj]
    exact (exists_of_throughCommentEnd? hb).1
  | openComment hs => exact hs ▸ List.prefix_rfl
  | lexeme _ hl => exact Lexeme.prefix_of_first? hl

theorem text_ne_nil (h : Chosen s segment) : segment.text ≠ [] := by
  cases h with
  | lexeme _ hl => exact Lexeme.text_ne_nil_of_first? hl
  | _ => exact List.cons_ne_nil _ _

theorem fits (h : Chosen s segment) {rest : List Char} (hs : s = segment.text ++ rest) :
    segment.Fits rest := by
  cases h with
  | newline => trivial
  | blank _ hb hc => exact ⟨hb, hc⟩
  | @lineComment tail ht =>
    refine ⟨_, rfl, fun hm => ?_, fun c hc => ?_⟩
    · exact absurd (List.mem_takeWhile_imp hm) (by simp)
    · have htail : tail.takeWhile (· != '\n') ++ rest = tail := by simpa [text, ht] using hs.symm
      have hrest : rest = tail.dropWhile (· != '\n') := by
        rw [← List.append_right_inj (tail.takeWhile (· != '\n')), htail,
          List.takeWhile_append_dropWhile]
      have hstop := List.head?_dropWhile_not (· != '\n') tail
      rw [← hrest, Option.mem_def.1 hc] at hstop
      simpa using hstop
  | blockComment _ hb =>
    obtain ⟨-, body, rfl, hinside⟩ := exists_of_throughCommentEnd? hb
    exact ⟨body, rfl, hinside⟩
  | openComment ht hb =>
    refine ⟨⟨_, rfl, not_infix_of_throughCommentEnd? hb⟩, ?_⟩
    exact List.self_eq_append_right.1 (ht.symm.trans hs)
  | lexeme _ hl =>
    obtain ⟨k, hk, -⟩ := Lexeme.exists_class_of_first? hl
    exact ⟨k, (k.findsLongest_find?.sound hk).1⟩
  | unrecognized _ hb => exact hb

end Chosen

/-- The lexeme of a segment, if it is one. -/
def lexeme? : Segment → Option Lexeme
  | lexeme l => some l
  | _ => none

end Segment

/-! ## All segments -/

/-- What the first segment leaves over comes right behind it. -/
theorem Segment.text_append_drop (c : Char) (s : List Char) :
    (first c s).text ++ s.drop ((first c s).text.length - 1) = c :: s := by
  have hchosen := chosen_first c s
  obtain ⟨rest, hrest⟩ := hchosen.text_prefix
  obtain ⟨d, text, htext⟩ := List.exists_cons_of_ne_nil hchosen.text_ne_nil
  rw [htext] at hrest ⊢
  obtain ⟨rfl, rfl⟩ := List.cons.inj hrest
  simp

theorem flatMap_text_segments (s : List Char) : (segments s).flatMap Segment.text = s := by
  fun_induction segments s with
  | case1 => rfl
  | case2 c s segment ih =>
    rw [List.flatMap_cons, ih]
    exact Segment.text_append_drop c s

/-- Each segment stands at the front of what it and the later ones make up. -/
theorem exists_chosen_of_segments {s : List Char} {before after : List Segment}
    {segment : Segment} (h : segments s = before ++ segment :: after) :
    Segment.Chosen (segment.text ++ after.flatMap Segment.text) segment := by
  induction before generalizing s with
  | nil =>
    cases s with
    | nil => exact absurd h (by simp [segments])
    | cons c s =>
      rw [segments] at h
      obtain ⟨rfl, rfl⟩ := List.cons.inj h
      have hchosen := Segment.chosen_first c s
      rwa [← Segment.text_append_drop c s, ← flatMap_text_segments (s.drop _)] at hchosen
  | cons other before ih =>
    cases s with
    | nil => exact absurd h (by simp [segments])
    | cons c s =>
      rw [segments] at h
      exact ih (List.cons.inj h).2

/-! ## Tokens and complaints -/

/-- The segments make up the source. The tokens are their lexemes and the complaints are their
faults, in order; both stand on the line that is one more than the newlines before the segment, and
tokens are numbered from 1. -/
structure Scanned (source : List Char) (tokens : List Token) (errors : List LexicalError)
    (parts : List Segment) : Prop where
  text : parts.flatMap Segment.text = source
  tokens_length : tokens.length = (parts.filterMap Segment.lexeme?).length
  errors_length : errors.length = (parts.filterMap Segment.fault?).length
  token : ∀ before l after, parts = before ++ .lexeme l :: after →
    tokens[(before.filterMap Segment.lexeme?).length]? = some
      { id := (before.filterMap Segment.lexeme?).length + 1
        lexeme := String.ofList l.text
        category := l.category
        value := l.value
        line := 1 + (before.flatMap Segment.text).count '\n' }
  error : ∀ before segment after fault, parts = before ++ segment :: after →
    segment.fault? = some fault →
    errors[(before.filterMap Segment.fault?).length]? = some
      { line := 1 + (before.flatMap Segment.text).count '\n', fault }

section
variable {α : Type} (find? : Segment → Option α)

/-- What is found in the segments, each with the line on which its segment starts. -/
def foundFrom (line : Nat) : List Segment → List (Nat × α)
  | [] => []
  | segment :: rest =>
    ((find? segment).map (line, ·)).toList ++ foundFrom (line + segment.newlines) rest

theorem length_foundFrom (line : Nat) (parts : List Segment) :
    (foundFrom find? line parts).length = (parts.filterMap find?).length := by
  induction parts generalizing line with
  | nil => rfl
  | cons segment rest ih =>
    rw [foundFrom, List.length_append, ih]
    cases h : find? segment with
    | none => simp [h]
    | some found => simp [h, Nat.add_comm]

theorem foundFrom_append (line : Nat) (before after : List Segment) :
    foundFrom find? line (before ++ after) =
      foundFrom find? line before ++
        foundFrom find? (line + (before.flatMap Segment.text).count '\n') after := by
  induction before generalizing line with
  | nil => rfl
  | cons segment before ih =>
    rw [List.cons_append, foundFrom, ih, foundFrom, List.append_assoc, List.flatMap_cons,
      List.count_append, Segment.newlines, Nat.add_assoc]

theorem getElem?_foundFrom (line : Nat) (before after : List Segment) {segment : Segment}
    {found : α} (h : find? segment = some found) :
    (foundFrom find? line (before ++ segment :: after))[(before.filterMap find?).length]? =
      some (line + (before.flatMap Segment.text).count '\n', found) := by
  rw [foundFrom_append, List.getElem?_append_right (Nat.le_of_eq (length_foundFrom ..)),
    length_foundFrom, Nat.sub_self, foundFrom, h]
  rfl

/-- No line is counted that is not there. -/
theorem line_of_mem_foundFrom {line : Nat} {parts : List Segment} {entry : Nat × α}
    (h : entry ∈ foundFrom find? line parts) :
    line ≤ entry.1 ∧ entry.1 ≤ line + (parts.flatMap Segment.text).count '\n' := by
  induction parts generalizing line with
  | nil => exact absurd h List.not_mem_nil
  | cons segment rest ih =>
    rw [foundFrom, List.mem_append] at h
    rw [List.flatMap_cons, List.count_append]
    rcases h with h | h
    · obtain ⟨found, -, rfl⟩ := Option.map_eq_some_iff.1 (Option.mem_toList.1 h)
      exact ⟨Nat.le_refl _, Nat.le_add_right ..⟩
    · have hrest := ih h
      rw [Segment.newlines] at hrest
      omega

end

theorem tokensFrom_cons (id line : Nat) (segment : Segment) (rest : List Segment) :
    tokensFrom id line (segment :: rest) =
      (segment.lexeme?.map (Token.ofLexeme id line)).toList ++
        tokensFrom (id + segment.lexeme?.toList.length) (line + segment.newlines) rest := by
  cases segment <;> rfl

theorem tokensFrom_eq (id line : Nat) (parts : List Segment) :
    tokensFrom id line parts =
      ((foundFrom Segment.lexeme? line parts).zipIdx id).map fun entry =>
        Token.ofLexeme entry.2 entry.1.1 entry.1.2 := by
  induction parts generalizing id line with
  | nil => rfl
  | cons segment rest ih =>
    rw [tokensFrom_cons, ih, foundFrom, List.zipIdx_append, List.map_append]
    cases segment.lexeme? <;> rfl

theorem errorsFrom_eq (line : Nat) (parts : List Segment) :
    errorsFrom line parts =
      (foundFrom Segment.fault? line parts).map fun entry => ⟨entry.1, entry.2⟩ := by
  induction parts generalizing line with
  | nil => rfl
  | cons segment rest ih =>
    rw [foundFrom, errorsFrom, List.map_append, ← ih]
    cases segment.fault? <;> rfl

theorem line_of_mem_tokensFrom {id line : Nat} {parts : List Segment} {token : Token}
    (h : token ∈ tokensFrom id line parts) :
    line ≤ token.line ∧ token.line ≤ line + (parts.flatMap Segment.text).count '\n' := by
  rw [tokensFrom_eq] at h
  obtain ⟨entry, hm, rfl⟩ := List.mem_map.1 h
  exact line_of_mem_foundFrom _ (List.fst_mem_of_mem_zipIdx hm)

theorem line_of_mem_errorsFrom {line : Nat} {parts : List Segment} {error : LexicalError}
    (h : error ∈ errorsFrom line parts) :
    line ≤ error.line ∧ error.line ≤ line + (parts.flatMap Segment.text).count '\n' := by
  rw [errorsFrom_eq] at h
  obtain ⟨entry, hm, rfl⟩ := List.mem_map.1 h
  exact line_of_mem_foundFrom _ hm

theorem scanned_segments (source : String) :
    Scanned source.toList (tokenize source).1 (tokenize source).2 (segments source.toList) where
  text := flatMap_text_segments _
  tokens_length := by
    show (tokensFrom 1 1 (segments source.toList)).length = _
    rw [tokensFrom_eq, List.length_map, List.length_zipIdx, length_foundFrom]
  errors_length := by
    show (errorsFrom 1 (segments source.toList)).length = _
    rw [errorsFrom_eq, List.length_map, length_foundFrom]
  token before l after h := by
    show (tokensFrom 1 1 (segments source.toList))[_]? = _
    rw [h, tokensFrom_eq, List.getElem?_map, List.getElem?_zipIdx,
      getElem?_foundFrom Segment.lexeme? 1 before after rfl, Nat.add_comm _ 1]
    rfl
  error before segment after fault h hf := by
    show (errorsFrom 1 (segments source.toList))[_]? = _
    rw [h, errorsFrom_eq, List.getElem?_map, getElem?_foundFrom Segment.fault? 1 before after hf]
    rfl

/-! ## Source texts -/

/-- A source text is cut into segments of the seven kinds. Its tokens and the complaints about it
are exactly those of the segments, and what was scanned once gives nothing when it is scanned
again. -/
theorem tokenize_partitions (source : String) :
    (∃ parts, Scanned source.toList (tokenize source).1 (tokenize source).2 parts ∧
      ∀ before segment after, parts = before ++ segment :: after →
        segment.Fits (after.flatMap Segment.text)) ∧
    (Scanner.ofText source).scan.2.scan = ([], (Scanner.ofText source).scan.2) := by
  refine ⟨⟨_, scanned_segments source, fun before segment after h => ?_⟩, ?_⟩
  · exact (exists_chosen_of_segments h).fits rfl
  · simp [Scanner.scan, segments, tokensFrom, errorsFrom]

end FrontEnd
