import FrontEnd.Proofs.Token.Boundary

/-! # Texts that are put together

A line break ends every segment, unless a comment or a quote is still open. So two texts with a line
break between them are scanned apart. Blanks end lexemes too, so the lexemes of a text, written with
spaces between them, are scanned as they were.

* `LexicalFault.isOpen`: something was opened and never closed.
* `Segment.Chosen.first_eq`, `segments_of_chosen`: why a segment stands at the front determines it.
* `Segment.Chosen.append_newline`, `segments_append_newline`: a line break behind the text.
* `Segment.Chosen.text_append`, `segments_spaced`: lexemes with spaces between them.
* `tokenize_append_newline`: lines are scanned one after the other.
* `tokenize_spacedLexemes`: lexemes are scanned as they were.
-/

namespace FrontEnd
set_option autoImplicit false

/-! ## The segment at the front -/

theorem not_isBlank_slash : Text.isBlank '/' = false := by decide

namespace Segment.Chosen
variable {s : List Char} {segment : Segment}

theorem first_eq {c : Char} (h : Chosen (c :: s) segment) : first c s = segment := by
  cases h with
  | newline hs =>
    obtain ⟨rfl, -⟩ := List.cons.inj hs
    rfl
  | blank hs hb hc =>
    obtain ⟨rfl, rfl⟩ := List.cons.inj hs
    simp [first, hb, hc]
  | lineComment hs =>
    obtain ⟨rfl, rfl⟩ := List.cons.inj hs
    rfl
  | blockComment hs hb =>
    obtain ⟨rfl, rfl⟩ := List.cons.inj hs
    simp [first, comment?, hb, not_isBlank_slash]
  | openComment hs hb =>
    obtain ⟨rfl, rfl⟩ := List.cons.inj hs
    simp [first, comment?, hb, not_isBlank_slash]
  | lexeme hc hl =>
    have hb := Lexeme.not_isBlank_of_first? hl
    simp [first, hb, ne_newline_of_not_isBlank hb, hc, hl]
  | unrecognized hs hb hc hl =>
    obtain ⟨rfl, rfl⟩ := List.cons.inj hs
    simp [first, hb, ne_newline_of_not_isBlank hb, hc, hl]

end Segment.Chosen

theorem segments_of_chosen {s rest : List Char} {segment : Segment} (h : Segment.Chosen s segment)
    (hs : s = segment.text ++ rest) : segments s = segment :: segments rest := by
  obtain ⟨c, text, htext⟩ := List.exists_cons_of_ne_nil h.text_ne_nil
  rw [htext, List.cons_append] at hs
  subst hs
  rw [segments, h.first_eq, htext, List.length_cons, Nat.add_sub_cancel, List.drop_left]

/-! ## Comments -/

namespace Segment
variable {s tail : List Char}

/-- A comment starts with two characters that are no blanks. -/
theorem comment?_append (h : comment? s = none) (htail : ∀ c ∈ tail.head?, Text.isBlank c = true) :
    comment? (s ++ tail) = none := by
  rw [comment?_eq_none_iff] at h ⊢
  have hstar : Text.isBlank '*' = false := by decide
  exact ⟨mt (prefix_of_blank_append (by simp [not_isBlank_slash]) htail) h.1,
    mt (prefix_of_blank_append (by simp [not_isBlank_slash, hstar]) htail) h.2⟩

theorem comment?_of_prefix {t : List Char} (h : comment? s = none) (ht : t <+: s) :
    comment? t = none := by
  rw [comment?_eq_none_iff] at h ⊢
  exact ⟨fun hfront => h.1 (hfront.trans ht), fun hfront => h.2 (hfront.trans ht)⟩

theorem throughCommentEnd?_append {body : List Char} (h : throughCommentEnd? s = some body) :
    throughCommentEnd? (s ++ tail) = some body := by
  fun_induction throughCommentEnd? s generalizing body with
  | case1 => exact absurd h (by simp)
  | case2 rest => exact h
  | case3 c s hfirst ih =>
    obtain ⟨rest, hrest, rfl⟩ := Option.map_eq_some_iff.1 h
    rw [List.cons_append, throughCommentEnd?, ih hrest, Option.map_some]
    -- There is a character behind `c`, since the comment has yet to end.
    rintro after rfl hafter
    cases s with
    | nil => exact absurd hrest (by simp [throughCommentEnd?])
    | cons d s =>
      obtain ⟨rfl, -⟩ := List.cons.inj hafter
      exact hfirst s rfl rfl

end Segment

/-! ## A line break behind a text -/

/-- Whether something was opened that is never closed. -/
def LexicalFault.isOpen : LexicalFault → Bool
  | unrecognized c => isQuote c
  | unterminatedComment => true

/-- A segment that a line break ends. -/
def Segment.IsClosed (segment : Segment) : Prop :=
  ∀ fault ∈ segment.fault?, fault.isOpen = false

theorem takeWhile_line_append (s rest : List Char) :
    (s ++ '\n' :: rest).takeWhile (· != '\n') = s.takeWhile (· != '\n') := by
  induction s with
  | nil => rfl
  | cons c s ih => rw [List.cons_append, List.takeWhile_cons, List.takeWhile_cons, ih]

theorem Segment.Chosen.append_newline {s : List Char} {segment : Segment}
    (h : Chosen s segment) (hclosed : segment.IsClosed) (rest : List Char) :
    Chosen (s ++ '\n' :: rest) segment := by
  have hblank := forall_mem_head?_cons (show Text.isBlank '\n' = true by decide) rest
  cases h with
  | newline hs => exact .newline (by rw [hs, List.cons_append])
  | blank hs hb hc => exact .blank (by rw [hs, List.cons_append]) hb hc
  | @lineComment tail hs =>
    rw [hs, ← takeWhile_line_append tail rest]
    exact .lineComment rfl
  | blockComment hs hb =>
    rw [hs]
    exact .blockComment rfl (throughCommentEnd?_append hb)
  | openComment => exact absurd (hclosed _ rfl) (by decide)
  | lexeme hc hl =>
    refine .lexeme (comment?_append hc hblank) ?_
    rw [Lexeme.first?_append (Lexeme.closesQuote_of_first? hl) hblank, hl]
  | @unrecognized c tail hs hb hc hl =>
    have hquote : ClosesQuote s := by
      rintro quote rest hq hquote
      obtain ⟨rfl, -⟩ := List.cons.inj (hs.symm.trans hq)
      have hopen : isQuote c = false := hclosed _ rfl
      rw [hquote] at hopen
      exact absurd hopen (by simp)
    refine .unrecognized (by rw [hs, List.cons_append]) hb (comment?_append hc hblank) ?_
    rw [Lexeme.first?_append hquote hblank, hl]

/-- What stands behind the line break is segmented on its own. -/
theorem segments_append_newline {s : List Char} (h : ∀ segment ∈ segments s, segment.IsClosed)
    (rest : List Char) :
    segments (s ++ '\n' :: rest) = segments s ++ .newline :: segments rest := by
  fun_induction segments s with
  | case1 => exact segments_of_chosen (.newline rfl) rfl
  | case2 c s segment ih =>
    obtain ⟨hsegment, hlater⟩ := List.forall_mem_cons.1 h
    have hchosen := (Segment.chosen_first c s).append_newline hsegment rest
    rw [← Segment.text_append_drop c s, List.append_assoc] at hchosen ⊢
    rw [segments_of_chosen hchosen rfl, ih hlater, List.cons_append]

/-! ## Tokens and complaints -/

/-- The token when so many tokens and lines come before it. -/
def Token.behind (ids lines : Nat) (token : Token) : Token :=
  { token with id := token.id + ids, line := token.line + lines }

def LexicalError.behind (lines : Nat) (error : LexicalError) : LexicalError :=
  { error with line := error.line + lines }

theorem tokensFrom_append (id line : Nat) (before after : List Segment) :
    tokensFrom id line (before ++ after) =
      tokensFrom id line before ++
        tokensFrom (id + (tokensFrom id line before).length)
          (line + (before.flatMap Segment.text).count '\n') after := by
  rw [tokensFrom_eq, foundFrom_append, List.zipIdx_append, List.map_append, tokensFrom_eq,
    tokensFrom_eq, List.length_map, List.length_zipIdx]

theorem errorsFrom_append (line : Nat) (before after : List Segment) :
    errorsFrom line (before ++ after) =
      errorsFrom line before ++
        errorsFrom (line + (before.flatMap Segment.text).count '\n') after := by
  rw [errorsFrom_eq, foundFrom_append, List.map_append, errorsFrom_eq, errorsFrom_eq]

theorem tokensFrom_add (id line ids lines : Nat) (parts : List Segment) :
    tokensFrom (id + ids) (line + lines) parts =
      (tokensFrom id line parts).map (Token.behind ids lines) := by
  induction parts generalizing id line with
  | nil => rfl
  | cons segment parts ih =>
    rw [tokensFrom_cons, tokensFrom_cons, List.map_append, ← ih, Nat.add_right_comm id,
      Nat.add_right_comm line]
    cases segment.lexeme? <;> rfl

theorem errorsFrom_add (line lines : Nat) (parts : List Segment) :
    errorsFrom (line + lines) parts = (errorsFrom line parts).map (LexicalError.behind lines) := by
  induction parts generalizing line with
  | nil => rfl
  | cons segment parts ih =>
    rw [errorsFrom, errorsFrom, Nat.add_right_comm, ih]
    cases segment.fault? <;> rfl

theorem tokenize_eq (source : String) :
    tokenize source =
      (tokensFrom 1 1 (segments source.toList), errorsFrom 1 (segments source.toList)) :=
  rfl

/-- Every fault of a segment is complained about. -/
theorem exists_error_of_mem_segments {source : String} {segment : Segment}
    (h : segment ∈ segments source.toList) {fault : LexicalFault}
    (hf : segment.fault? = some fault) : ∃ error ∈ (tokenize source).2, error.fault = fault := by
  obtain ⟨before, after, hsplit⟩ := List.append_of_mem h
  have herror := (scanned_segments source).error before segment after fault hsplit hf
  exact ⟨_, List.mem_of_getElem? herror, rfl⟩

/-- Behind a line break the scanner starts afresh, but for the numbers of the tokens and the lines,
unless a comment or a quote was left open. -/
theorem tokenize_append_newline (a b : String)
    (h : ∀ error ∈ (tokenize a).2, error.fault.isOpen = false) :
    tokenize (a ++ "\n" ++ b) =
      ((tokenize a).1 ++ (tokenize b).1.map
          (Token.behind (tokenize a).1.length (1 + a.toList.count '\n')),
        (tokenize a).2 ++ (tokenize b).2.map
          (LexicalError.behind (1 + a.toList.count '\n'))) := by
  have hclosed : ∀ segment ∈ segments a.toList, segment.IsClosed := by
    intro segment hm fault hf
    obtain ⟨error, herror, rfl⟩ := exists_error_of_mem_segments hm hf
    exact h error herror
  have hsegments : segments (a ++ "\n" ++ b).toList =
      segments a.toList ++ .newline :: segments b.toList := by
    rw [← segments_append_newline hclosed, String.toList_append, String.toList_append,
      List.append_assoc]
    rfl
  have hlines : 1 + a.toList.count '\n' + Segment.newline.newlines =
      1 + (1 + a.toList.count '\n') := by
    show 1 + a.toList.count '\n' + 1 = _
    omega
  refine Prod.ext ?_ ?_
  · simp only [tokenize_eq, hsegments, tokensFrom_append, flatMap_text_segments]
    rw [← tokensFrom_add, ← hlines]
    rfl
  · simp only [tokenize_eq, hsegments, errorsFrom_append, flatMap_text_segments]
    rw [← errorsFrom_add, ← hlines]
    rfl

/-- A string, a comment and a strange character before the line break; behind it a quote may stay
open. -/
theorem tokenize_append_newline_openQuote :
    (∀ error ∈ (tokenize "'a b' @ /* c\n */ 1.").2, error.fault.isOpen = false) ∧
      tokenize ("'a b' @ /* c\n */ 1." ++ "\n" ++ "5e1 'd") =
        ([⟨1, "'a b'", .string, some "a b", 1⟩, ⟨2, "1", .int, some "1", 2⟩,
          ⟨3, ".", .dot, none, 2⟩, ⟨4, "5", .int, some "5", 3⟩,
          ⟨5, "e1", .identifier, some "e1", 3⟩, ⟨6, "d", .identifier, some "d", 3⟩],
        [⟨1, .unrecognized '@'⟩, ⟨3, .unrecognized '\x27'⟩]) :=
  have h : ∀ error ∈ (tokenize "'a b' @ /* c\n */ 1.").2, error.fault.isOpen = false := by
    decide +kernel
  ⟨h, (tokenize_append_newline _ _ h).trans (by decide +kernel)⟩

/-! ## Lexemes with spaces between them -/

/-- What stands behind a lexeme may be exchanged for a blank. -/
theorem Segment.Chosen.text_append {s : List Char} {l : Lexeme} (h : Chosen s (.lexeme l))
    (tail : List Char) (htail : ∀ c ∈ tail.head?, Text.isBlank c = true) :
    Chosen (l.text ++ tail) (.lexeme l) := by
  cases h with
  | lexeme hc hl =>
    have hown := comment?_of_prefix hc (Lexeme.prefix_of_first? hl)
    exact .lexeme (comment?_append hown htail) (Lexeme.first?_text_append hl htail)

theorem segments_spaced {ls : List Lexeme} (h : ∀ l ∈ ls, ∃ s, Segment.Chosen s (.lexeme l)) :
    segments ([' '].intercalate (ls.map Lexeme.text)) =
      (ls.map Segment.lexeme).intersperse (.blank ' ') := by
  have hspace : ∀ rest, segments (' ' :: rest) = .blank ' ' :: segments rest := fun rest =>
    segments_of_chosen (.blank rfl (by decide) (by decide)) rfl
  induction ls with
  | nil => simp [segments]
  | cons l ls ih =>
    obtain ⟨⟨s, hl⟩, hlater⟩ := List.forall_mem_cons.1 h
    cases ls with
    | nil =>
      have hchosen := hl.text_append [] (by simp)
      simpa [segments] using segments_of_chosen hchosen rfl
    | cons m ls =>
      have hchosen := hl.text_append (' ' :: [' '].intercalate ((m :: ls).map Lexeme.text))
        (forall_mem_head?_cons (by decide) _)
      calc segments ([' '].intercalate ((l :: m :: ls).map Lexeme.text))
        _ = segments (l.text ++ ' ' :: [' '].intercalate ((m :: ls).map Lexeme.text)) := by
          simp [List.intercalate_cons_cons]
        _ = .lexeme l :: .blank ' ' ::
            segments ([' '].intercalate ((m :: ls).map Lexeme.text)) := by
          rw [segments_of_chosen hchosen rfl, hspace]
        _ = ((l :: m :: ls).map Segment.lexeme).intersperse (.blank ' ') := by
          rw [ih hlater]
          rfl

theorem filterMap_intersperse {α : Type} {find? : Segment → Option α} {separator : Segment}
    (h : find? separator = none) (parts : List Segment) :
    (parts.intersperse separator).filterMap find? = parts.filterMap find? := by
  induction parts with
  | nil => rfl
  | cons segment parts ih =>
    cases parts with
    | nil => rfl
    | cons next parts =>
      rw [List.intersperse_cons_cons, List.filterMap_cons, List.filterMap_cons_none h, ih]
      rfl

/-- What a token carries, apart from where it stands. -/
def Token.content (token : Token) : String × Category × Option String :=
  (token.lexeme, token.category, token.value)

def Lexeme.content (l : Lexeme) : String × Category × Option String :=
  (String.ofList l.text, l.category, l.value)

theorem content_tokensFrom (id line : Nat) (parts : List Segment) :
    (tokensFrom id line parts).map Token.content =
      (parts.filterMap Segment.lexeme?).map Lexeme.content := by
  induction parts generalizing id line with
  | nil => rfl
  | cons segment parts ih =>
    rw [tokensFrom_cons, List.map_append, ih, List.filterMap_cons]
    cases segment.lexeme? <;> rfl

/-- The lexemes of the tokens, with a space between each two. -/
def spacedLexemes (tokens : List Token) : String :=
  String.intercalate " " (tokens.map (·.lexeme))

theorem toList_spacedLexemes (id line : Nat) (parts : List Segment) :
    (spacedLexemes (tokensFrom id line parts)).toList =
      [' '].intercalate ((parts.filterMap Segment.lexeme?).map Lexeme.text) := by
  have hlexemes : (tokensFrom id line parts).map (·.lexeme) =
      (parts.filterMap Segment.lexeme?).map fun l => String.ofList l.text := by
    simpa [Function.comp_def, Token.content, Lexeme.content] using
      congrArg (List.map Prod.fst) (content_tokensFrom id line parts)
  rw [spacedLexemes, hlexemes, String.toList_intercalate, List.map_map]
  simp [Function.comp_def]

theorem exists_chosen_of_mem_lexemes {s : List Char} {l : Lexeme}
    (h : l ∈ (segments s).filterMap Segment.lexeme?) : ∃ s, Segment.Chosen s (.lexeme l) := by
  obtain ⟨segment, hm, hsegment⟩ := List.mem_filterMap.1 h
  obtain ⟨before, after, hsplit⟩ := List.append_of_mem hm
  cases segment with
  | lexeme m =>
    obtain rfl := Option.some.inj hsegment
    exact ⟨_, exists_chosen_of_segments hsplit⟩
  | _ => exact absurd hsegment (by simp [Segment.lexeme?])

/-- The lexemes of a text, with spaces between them, are scanned as they were. -/
theorem tokenize_spacedLexemes (source : String) :
    (tokenize (spacedLexemes (tokenize source).1)).1.map Token.content =
        (tokenize source).1.map Token.content ∧
      (tokenize (spacedLexemes (tokenize source).1)).2 = [] := by
  generalize hls : (segments source.toList).filterMap Segment.lexeme? = ls
  have hagain : segments (spacedLexemes (tokenize source).1).toList =
      (ls.map Segment.lexeme).intersperse (.blank ' ') := by
    rw [tokenize_eq, toList_spacedLexemes, hls]
    exact segments_spaced fun l hl => exists_chosen_of_mem_lexemes (hls ▸ hl)
  constructor
  · rw [tokenize_eq, content_tokensFrom, hagain, filterMap_intersperse rfl, tokenize_eq,
      content_tokensFrom, hls, List.filterMap_map]
    simp [Function.comp_def, Segment.lexeme?]
  · have hlength := (scanned_segments (spacedLexemes (tokenize source).1)).errors_length
    rw [hagain, filterMap_intersperse rfl, List.filterMap_map] at hlength
    simpa [Function.comp_def, Segment.fault?] using hlength

end FrontEnd
