import FrontEnd.Json
import FrontEnd.Proofs.Listing

/-! # The text of a JSON value

The indented text of a value determines the value. The first character tells which kind of value
stands there, and every value but a number tells where it ends; behind a number there is no digit.

* `Json.chars`: the characters that are written of a value, and `Json.toList_write` for that.
* `Json.escape_inj`, `Json.quote_inj`: no escape is the start of another one.
* `Json.chars_inj`: the same value stands at the front of the same text.
* `Json.pretty_injective`: different values have different texts.
-/

namespace FrontEnd
set_option autoImplicit false

namespace Json

/-! ## Strings -/

/-- The characters that stand in a text only behind a backslash. -/
def escaped : List Char := '"' :: '\\' :: (List.range 32).map Char.ofNat

def escape (c : Char) : List Char := (escapeChar c).toList

theorem escape_of_not_mem {c : Char} (h : c ∉ escaped) : escape c = [c] := by
  unfold escape escapeChar
  split
  case h_8 =>
    split
    · rename_i hlt
      have hm : Char.ofNat c.toNat ∈ (List.range 32).map Char.ofNat :=
        List.mem_map_of_mem (List.mem_range.2 hlt)
      rw [Char.ofNat_toNat] at hm
      exact absurd (List.mem_cons_of_mem _ (List.mem_cons_of_mem _ hm)) h
    · exact String.toList_singleton c
  all_goals exact absurd (by decide) h

/-- An escape starts with a backslash. -/
theorem head?_escape {c : Char} (h : c ∈ escaped) : (escape c).head? = some '\\' := by
  have hall : (escaped.all fun c => (escape c).head? == some '\\') = true := by decide +kernel
  exact eq_of_beq (List.all_eq_true.1 hall c h)

theorem eq_of_prefix_escape {c d : Char} (hc : c ∈ escaped) (hd : d ∈ escaped)
    (h : escape c <+: escape d) : c = d := by
  have hall : (escaped.all fun c => escaped.all fun d =>
      !(escape c).isPrefixOf (escape d) || c == d) = true := by decide +kernel
  have hpair := List.all_eq_true.1 (List.all_eq_true.1 hall c hc) d hd
  rw [List.isPrefixOf_iff_prefix.2 h] at hpair
  exact eq_of_beq hpair

theorem escape_append_ne {c d : Char} (hc : c ∈ escaped) (hd : d ≠ '\\') (u v : List Char) :
    escape c ++ u ≠ d :: v := by
  intro h
  have hhead := congrArg List.head? h
  rw [List.head?_append, head?_escape hc] at hhead
  exact hd (Option.some.inj hhead).symm

theorem ne_backslash {c : Char} (h : c ∉ escaped) : c ≠ '\\' := by
  rintro rfl
  exact h (by decide)

theorem escape_inj {c d : Char} {u v : List Char} (h : escape c ++ u = escape d ++ v) :
    c = d ∧ u = v := by
  by_cases hc : c ∈ escaped
  · by_cases hd : d ∈ escaped
    · obtain rfl : c = d := by
        rcases List.append_eq_append_iff.1 h with ⟨between, he, -⟩ | ⟨between, he, -⟩
        · exact eq_of_prefix_escape hc hd ⟨between, he.symm⟩
        · exact (eq_of_prefix_escape hd hc ⟨between, he.symm⟩).symm
      exact ⟨rfl, List.append_cancel_left h⟩
    · rw [escape_of_not_mem hd] at h
      exact absurd h (escape_append_ne hc (ne_backslash hd) u v)
  · rw [escape_of_not_mem hc] at h
    by_cases hd : d ∈ escaped
    · exact absurd h.symm (escape_append_ne hd (ne_backslash hc) v u)
    · rw [escape_of_not_mem hd] at h
      exact List.cons.inj h

/-- No character of a string ends it. -/
theorem escape_append_ne_quote (c : Char) (u v : List Char) : escape c ++ u ≠ '"' :: v := by
  by_cases hc : c ∈ escaped
  · exact escape_append_ne hc (by decide) u v
  · rw [escape_of_not_mem hc]
    intro h
    obtain rfl : c = '"' := (List.cons.inj h).1
    exact hc (by decide)

theorem escapes_inj : ∀ {s t rest rest' : List Char},
    s.flatMap escape ++ '"' :: rest = t.flatMap escape ++ '"' :: rest' → s = t ∧ rest = rest'
  | [], [], _, _, h => ⟨rfl, (List.cons.inj h).2⟩
  | [], c :: t, _, _, h => by
    rw [List.flatMap_cons, List.append_assoc] at h
    exact absurd h.symm (escape_append_ne_quote c _ _)
  | c :: s, [], _, _, h => by
    rw [List.flatMap_cons, List.append_assoc] at h
    exact absurd h (escape_append_ne_quote c _ _)
  | c :: s, d :: t, _, _, h => by
    rw [List.flatMap_cons, List.flatMap_cons, List.append_assoc, List.append_assoc] at h
    obtain ⟨rfl, htail⟩ := escape_inj h
    obtain ⟨rfl, hrest⟩ := escapes_inj htail
    exact ⟨rfl, hrest⟩

/-- The characters of a string in quotes. -/
def quoted (s : String) : List Char := '"' :: (s.toList.flatMap escape ++ ['"'])

theorem toList_quote (s : String) : (quote s).toList = quoted s := by
  have hescape : escape = fun c => (escapeChar c).toList := rfl
  simp [quote, quoted, hescape, List.flatMap, Function.comp_def]

theorem quoted_inj {s t : String} {rest rest' : List Char}
    (h : quoted s ++ rest = quoted t ++ rest') : s = t ∧ rest = rest' := by
  rw [quoted, quoted, List.cons_append, List.cons_append, List.append_assoc, List.append_assoc] at h
  obtain ⟨hs, hrest⟩ := escapes_inj (List.cons.inj h).2
  exact ⟨String.toList_inj.1 hs, hrest⟩

/-! ## Values -/

/-- A new line at indentation `depth`. -/
def lineBreak (depth : Nat) : List Char := '\n' :: List.replicate (2 * depth) ' '

mutual

/-- The characters of a value whose first line stands at indentation `depth`. -/
def chars (depth : Nat) : Json → List Char
  | null => "null".toList
  | bool b => (if b then "true" else "false").toList
  | number n => Nat.toDigits 10 n
  | string s => quoted s
  | array [] => ['[', ']']
  | array (item :: rest) =>
    '[' :: (lineBreak (depth + 1) ++ (chars (depth + 1) item ++
      (itemChars (depth + 1) rest ++ (lineBreak depth ++ [']']))))
  | fields [] => ['{', '}']
  | fields ((key, value) :: rest) =>
    '{' :: (lineBreak (depth + 1) ++ (quoted key ++ ':' :: ' ' :: (chars (depth + 1) value ++
      (entryChars (depth + 1) rest ++ (lineBreak depth ++ ['}'])))))

def itemChars (depth : Nat) : List Json → List Char
  | [] => []
  | item :: rest => ',' :: (lineBreak depth ++ (chars depth item ++ itemChars depth rest))

def entryChars (depth : Nat) : List (String × Json) → List Char
  | [] => []
  | (key, value) :: rest =>
    ',' :: (lineBreak depth ++ (quoted key ++ ':' :: ' ' :: (chars depth value ++
      entryChars depth rest)))

end

theorem toList_newLine (depth : Nat) (out : String) :
    (newLine depth out).toList = out.toList ++ lineBreak depth := by
  rw [newLine, Tree.toList_pushn, String.toList_push, List.append_assoc]
  rfl

mutual

theorem toList_write (depth : Nat) (out : String) : ∀ value : Json,
    (write depth out value).toList = out.toList ++ chars depth value
  | null => by rw [write, String.toList_append, chars]
  | bool b => by rw [write, String.toList_append, chars]
  | number n => by rw [write, String.toList_append, chars]; simp
  | string s => by rw [write, String.toList_append, toList_quote, chars]
  | array [] => by rw [write, String.toList_append, chars]; rfl
  | array (item :: rest) => by
    rw [write, chars]
    simp [toList_newLine, toList_writeItems (depth + 1) _ rest, toList_write (depth + 1) _ item]
  | fields [] => by rw [write, String.toList_append, chars]; rfl
  | fields ((key, value) :: rest) => by
    rw [write, chars]
    simp [toList_newLine, toList_quote, toList_writeEntries (depth + 1) _ rest,
      toList_write (depth + 1) _ value]

theorem toList_writeItems (depth : Nat) (out : String) : ∀ items : List Json,
    (writeItems depth out items).toList = out.toList ++ itemChars depth items
  | [] => by rw [writeItems, itemChars, List.append_nil]
  | item :: rest => by
    rw [writeItems, itemChars]
    simp [toList_newLine, toList_writeItems depth _ rest, toList_write depth _ item]

theorem toList_writeEntries (depth : Nat) (out : String) : ∀ entries : List (String × Json),
    (writeEntries depth out entries).toList = out.toList ++ entryChars depth entries
  | [] => by rw [writeEntries, entryChars, List.append_nil]
  | (key, value) :: rest => by
    rw [writeEntries, entryChars]
    simp [toList_newLine, toList_quote, toList_writeEntries depth _ rest,
      toList_write depth _ value]

end

/-! ## Reading back -/

/-- Which kind of value a text starts with tells the first character. -/
def kindOf (first : Char) : Nat :=
  match first with
  | 'n' => 0
  | 't' | 'f' => 1
  | '"' => 2
  | '[' => 3
  | '{' => 4
  | _ => 5

def kind : Json → Nat
  | null => 0
  | bool _ => 1
  | string _ => 2
  | array _ => 3
  | fields _ => 4
  | number _ => 5

theorem kindOf_digit {c : Char} (h : c.isDigit = true) : kindOf c = 5 := by
  unfold kindOf
  split
  case h_7 => rfl
  all_goals exact absurd h (by decide)

theorem kindOf_head? (depth : Nat) (value : Json) (rest : List Char) :
    ((chars depth value ++ rest).head?).map kindOf = some value.kind := by
  match value with
  | null | bool true | bool false | string _ | array [] | array (_ :: _) | fields []
  | fields (_ :: _) => rfl
  | number n =>
    rw [chars]
    cases hdigits : Nat.toDigits 10 n with
    | nil => exact absurd hdigits Nat.toDigits_ne_nil
    | cons c digits =>
      have hc : c ∈ Nat.toDigits 10 n := hdigits ▸ List.mem_cons_self
      exact congrArg some (kindOf_digit (Tree.isDigit_of_mem_digits hc))

/-- Behind a number. -/
def EndsNumber (rest : List Char) : Prop := ∀ c ∈ rest.head?, c.isDigit = false

/-- Behind the last item or entry a new line starts. -/
def StartsLine (rest : List Char) : Prop := rest.head? = some '\n'

theorem startsLine_lineBreak (depth : Nat) (rest : List Char) :
    StartsLine (lineBreak depth ++ rest) := rfl

theorem StartsLine.endsNumber_items {rest : List Char} (h : StartsLine rest) (depth : Nat)
    (items : List Json) : EndsNumber (itemChars depth items ++ rest) := by
  intro c hc
  cases items with
  | nil =>
    obtain rfl : '\n' = c := Option.some.inj (h.symm.trans hc)
    rfl
  | cons item items =>
    obtain rfl : ',' = c := Option.some.inj hc
    rfl

theorem StartsLine.endsNumber_entries {rest : List Char} (h : StartsLine rest) (depth : Nat)
    (entries : List (String × Json)) : EndsNumber (entryChars depth entries ++ rest) := by
  intro c hc
  cases entries with
  | nil =>
    obtain rfl : '\n' = c := Option.some.inj (h.symm.trans hc)
    rfl
  | cons entry entries =>
    obtain rfl : ',' = c := Option.some.inj hc
    rfl

theorem chars_array (depth : Nat) (item : Json) (items : List Json) (rest : List Char) :
    chars depth (array (item :: items)) ++ rest =
      '[' :: (lineBreak (depth + 1) ++ (chars (depth + 1) item ++
        (itemChars (depth + 1) items ++ (lineBreak depth ++ ']' :: rest)))) := by
  simp [chars]

theorem chars_fields (depth : Nat) (key : String) (value : Json) (entries : List (String × Json))
    (rest : List Char) :
    chars depth (fields ((key, value) :: entries)) ++ rest =
      '{' :: (lineBreak (depth + 1) ++ (quoted key ++ ':' :: ' ' :: (chars (depth + 1) value ++
        (entryChars (depth + 1) entries ++ (lineBreak depth ++ '}' :: rest))))) := by
  simp [chars]

theorem itemChars_cons (depth : Nat) (item : Json) (items : List Json) (rest : List Char) :
    itemChars depth (item :: items) ++ rest =
      ',' :: (lineBreak depth ++ (chars depth item ++ (itemChars depth items ++ rest))) := by
  simp [itemChars]

theorem entryChars_cons (depth : Nat) (key : String) (value : Json)
    (entries : List (String × Json)) (rest : List Char) :
    entryChars depth ((key, value) :: entries) ++ rest =
      ',' :: (lineBreak depth ++ (quoted key ++ ':' :: ' ' :: (chars depth value ++
        (entryChars depth entries ++ rest)))) := by
  simp [entryChars]

theorem StartsLine.ne_comma {rest more : List Char} (h : StartsLine rest) : rest ≠ ',' :: more := by
  rintro rfl
  exact absurd (Option.some.inj h) (by decide)

mutual

/-- With anything behind them that is no digit, equal texts start with the same value. -/
theorem chars_inj (depth : Nat) : ∀ (a b : Json) {rest rest' : List Char}, EndsNumber rest →
    EndsNumber rest' → chars depth a ++ rest = chars depth b ++ rest' → a = b ∧ rest = rest' := by
  intro a b rest rest' hr hr' h
  -- The first character leaves only pairs of the same kind.
  have hkind : a.kind = b.kind := by
    have hhead := congrArg (fun text => text.head?.map kindOf) h
    rw [kindOf_head?, kindOf_head?] at hhead
    exact Option.some.inj hhead
  match a, b, hkind with
  | null, null, _ => exact ⟨rfl, List.append_cancel_left h⟩
  | bool true, bool true, _ | bool false, bool false, _ => exact ⟨rfl, List.append_cancel_left h⟩
  | bool true, bool false, _ | bool false, bool true, _ =>
    exact absurd (List.cons.inj h).1 (by decide)
  | number m, number n, _ =>
    obtain ⟨hdigits, hrest⟩ := run_inj (fun _ => Tree.isDigit_of_mem_digits)
      (fun _ => Tree.isDigit_of_mem_digits) hr hr' h
    obtain rfl := Tree.digits_inj hdigits
    exact ⟨rfl, hrest⟩
  | string s, string t, _ =>
    obtain ⟨rfl, hrest⟩ := quoted_inj h
    exact ⟨rfl, hrest⟩
  | array [], array [], _ | fields [], fields [], _ => exact ⟨rfl, List.append_cancel_left h⟩
  | array [], array (other :: others), _ =>
    rw [chars_array] at h
    exact absurd (List.cons.inj (List.cons.inj h).2).1 (by decide)
  | array (item :: items), array [], _ =>
    rw [chars_array] at h
    exact absurd (List.cons.inj (List.cons.inj h).2).1 (by decide)
  | array (item :: items), array (other :: others), _ =>
    rw [chars_array, chars_array] at h
    have hline (rest : List Char) := startsLine_lineBreak depth (']' :: rest)
    obtain ⟨rfl, hitems⟩ := chars_inj (depth + 1) item other
      ((hline rest).endsNumber_items _ _) ((hline rest').endsNumber_items _ _)
      (List.append_cancel_left (List.cons.inj h).2)
    obtain ⟨rfl, hclose⟩ := itemChars_inj (depth + 1) items others (hline rest) (hline rest') hitems
    exact ⟨rfl, (List.cons.inj (List.append_cancel_left hclose)).2⟩
  | fields [], fields ((key, value) :: others), _ =>
    rw [chars_fields] at h
    exact absurd (List.cons.inj (List.cons.inj h).2).1 (by decide)
  | fields ((key, value) :: entries), fields [], _ =>
    rw [chars_fields] at h
    exact absurd (List.cons.inj (List.cons.inj h).2).1 (by decide)
  | fields ((key, value) :: entries), fields ((key', value') :: others), _ =>
    rw [chars_fields, chars_fields] at h
    have hline (rest : List Char) := startsLine_lineBreak depth ('}' :: rest)
    obtain ⟨rfl, hvalue⟩ := quoted_inj (List.append_cancel_left (List.cons.inj h).2)
    obtain ⟨rfl, hentries⟩ := chars_inj (depth + 1) value value'
      ((hline rest).endsNumber_entries _ _) ((hline rest').endsNumber_entries _ _)
      (List.cons.inj (List.cons.inj hvalue).2).2
    obtain ⟨rfl, hclose⟩ := entryChars_inj (depth + 1) entries others (hline rest) (hline rest')
      hentries
    exact ⟨rfl, (List.cons.inj (List.append_cancel_left hclose)).2⟩

theorem itemChars_inj (depth : Nat) : ∀ (items others : List Json) {rest rest' : List Char},
    StartsLine rest → StartsLine rest' →
      itemChars depth items ++ rest = itemChars depth others ++ rest' →
        items = others ∧ rest = rest'
  | [], [], _, _, _, _, h => ⟨rfl, h⟩
  | [], _ :: _, _, _, hr, _, h => by
    rw [itemChars_cons] at h
    exact absurd h hr.ne_comma
  | _ :: _, [], _, _, _, hr', h => by
    rw [itemChars_cons] at h
    exact absurd h.symm hr'.ne_comma
  | item :: items, other :: others, _, _, hr, hr', h => by
    rw [itemChars_cons, itemChars_cons] at h
    obtain ⟨rfl, hitems⟩ := chars_inj depth item other (hr.endsNumber_items _ _)
      (hr'.endsNumber_items _ _) (List.append_cancel_left (List.cons.inj h).2)
    obtain ⟨rfl, hrest⟩ := itemChars_inj depth items others hr hr' hitems
    exact ⟨rfl, hrest⟩

theorem entryChars_inj (depth : Nat) : ∀ (entries others : List (String × Json))
    {rest rest' : List Char}, StartsLine rest → StartsLine rest' →
      entryChars depth entries ++ rest = entryChars depth others ++ rest' →
        entries = others ∧ rest = rest'
  | [], [], _, _, _, _, h => ⟨rfl, h⟩
  | [], (_, _) :: _, _, _, hr, _, h => by
    rw [entryChars_cons] at h
    exact absurd h hr.ne_comma
  | (_, _) :: _, [], _, _, _, hr', h => by
    rw [entryChars_cons] at h
    exact absurd h.symm hr'.ne_comma
  | (key, value) :: entries, (key', value') :: others, _, _, hr, hr', h => by
    rw [entryChars_cons, entryChars_cons] at h
    obtain ⟨rfl, hvalue⟩ := quoted_inj (List.append_cancel_left (List.cons.inj h).2)
    obtain ⟨rfl, hentries⟩ := chars_inj depth value value' (hr.endsNumber_entries _ _)
      (hr'.endsNumber_entries _ _) (List.cons.inj (List.cons.inj hvalue).2).2
    obtain ⟨rfl, hrest⟩ := entryChars_inj depth entries others hr hr' hentries
    exact ⟨rfl, hrest⟩

end

/-- Different values have different texts. -/
theorem pretty_injective {a b : Json} (h : a.pretty = b.pretty) : a = b := by
  have hchars := congrArg String.toList h
  rw [pretty, pretty, toList_write, toList_write] at hchars
  have hend : EndsNumber [] := fun _ hc => absurd hc (by simp)
  refine (chars_inj 0 a b hend hend ?_).1
  simpa using hchars

end Json
end FrontEnd
