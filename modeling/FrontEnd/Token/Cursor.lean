import FrontEnd.Token.Scanner

/-! # The scan by positions

A cursor stands at a position in the source text and keeps the line of that position. The classes
of lexemes are told by their lengths, and every branch of the loop moves the position, and the line
where it passes newlines, on its own account.

* `Cursor.countWhile`: how far the characters ahead are of one kind.
* `Cursor.floatLength?` and its siblings: how long the lexeme of a class is that starts here.
* `Cursor.take`, `Cursor.makeToken`: the characters of a lexeme consumed, and the token they make.
* `Cursor.turn`: one turn of the loop, which finds at most one token.
* `Cursor.scan`: turns up to the end of the text.
-/

namespace FrontEnd
set_option autoImplicit false

structure Cursor where
  input : Array Char
  position : Nat := 0
  line : Nat := 1
  nextId : Nat := 1
  errors : List LexicalError := []
deriving Repr

namespace Cursor

def ofText (source : String) : Cursor where
  input := source.toList.toArray

/-- How many characters are not read yet. -/
def unread (cursor : Cursor) : Nat := cursor.input.size - cursor.position

/-! ## Looking ahead -/

def peekAhead (cursor : Cursor) (offset : Nat) : Option Char :=
  cursor.input[cursor.position + offset]?

def peek (cursor : Cursor) : Option Char := cursor.peekAhead 0

theorem lt_size_of_peekAhead {cursor : Cursor} {offset : Nat} {c : Char}
    (h : cursor.peekAhead offset = some c) : cursor.position + offset < cursor.input.size :=
  (Array.getElem?_eq_some_iff.1 h).1

/-- The number of characters of one kind that stand in a row from `offset` on. -/
def countWhile (cursor : Cursor) (offset : Nat) (p : Char → Bool) : Nat :=
  match _h : cursor.peekAhead offset with
  | some c => if p c then cursor.countWhile (offset + 1) p + 1 else 0
  | none => 0
termination_by cursor.input.size - (cursor.position + offset)
decreasing_by have := lt_size_of_peekAhead _h; omega

/-! ## Lengths of lexemes

Integers are `0[xX][0-9a-fA-F]*`, `0[0-7]*` or `[1-9][0-9]*`, strings `"[^"]*"` or `'[^']*'`. -/

/-- Digits on both sides of the point, `[0-9]+\.[0-9]+`. -/
def plainFloatLength? (cursor : Cursor) : Option Nat :=
  let whole := cursor.countWhile 0 Char.isDigit
  if 0 < whole && cursor.peekAhead whole == some '.' then
    let fraction := cursor.countWhile (whole + 1) Char.isDigit
    if 0 < fraction then some (whole + 1 + fraction) else none
  else none

/-- Where the exponent `[Ee][+-]?[0-9]+` ends that starts at `mark`. -/
def exponentEnd? (cursor : Cursor) (mark : Nat) : Option Nat :=
  if (cursor.peekAhead mark).any fun e => e == 'e' || e == 'E' then
    let signed := (cursor.peekAhead (mark + 1)).any fun sign => sign == '+' || sign == '-'
    let start := if signed then mark + 2 else mark + 1
    let digits := cursor.countWhile start Char.isDigit
    if 0 < digits then some (start + digits) else none
  else none

/-- A point with an exponent after it, `[0-9]*\.[0-9]*[Ee][+-]?[0-9]+`. -/
def exponentFloatLength? (cursor : Cursor) : Option Nat :=
  let whole := cursor.countWhile 0 Char.isDigit
  if cursor.peekAhead whole == some '.' then
    cursor.exponentEnd? (whole + 1 + cursor.countWhile (whole + 1) Char.isDigit)
  else none

/-- The longer one of the two forms. -/
def floatLength? (cursor : Cursor) : Option Nat :=
  match cursor.plainFloatLength?, cursor.exponentFloatLength? with
  | some plain, some exponent => some (max plain exponent)
  | plain, exponent => plain.or exponent

def hexLength? (cursor : Cursor) : Option Nat :=
  if cursor.peek == some '0' && (cursor.peekAhead 1).any fun x => x == 'x' || x == 'X' then
    some (2 + cursor.countWhile 2 isHexDigit)
  else none

def octalLength? (cursor : Cursor) : Option Nat :=
  if cursor.peek == some '0' then some (1 + cursor.countWhile 1 isOctalDigit) else none

def decimalLength? (cursor : Cursor) : Option Nat :=
  if cursor.peek.any fun c => '1' ≤ c && c ≤ '9' then
    some (1 + cursor.countWhile 1 Char.isDigit)
  else none

/-- A quote that is never closed is no match. -/
def stringLength? (cursor : Cursor) : Option Nat :=
  match cursor.peek with
  | some quote =>
    let body := cursor.countWhile 1 (· != quote)
    if isQuote quote && cursor.peekAhead (1 + body) == some quote then some (body + 2) else none
  | none => none

/-- The length and the category of the operator or delimiter that starts with `c`, and whether its
token carries the text. Two-character forms are checked first. -/
def punctuation? (c : Char) (next : Option Char) : Option (Nat × Category × Bool) :=
  match c, next with
  | '=', some '=' => some (2, .relation, true)
  | '!', some '=' => some (2, .relation, true)
  | '<', some '=' | '>', some '=' => some (2, .relation, true)
  | '+', some '+' => some (2, .increment, false)
  | '-', some '-' => some (2, .decrement, false)
  | '&', some '&' => some (2, .and, false)
  | '|', some '|' => some (2, .or, false)
  | '<', _ | '>', _ => some (1, .relation, true)
  | '=', _ => some (1, .assign, false)
  | ';', _ => some (1, .semicolon, false)
  | ',', _ => some (1, .comma, false)
  | '+', _ => some (1, .plus, false)
  | '-', _ => some (1, .minus, false)
  | '*', _ => some (1, .star, false)
  | '/', _ => some (1, .divide, false)
  | '%', _ => some (1, .modulo, false)
  | '!', _ => some (1, .not, false)
  | '.', _ => some (1, .dot, false)
  | '(', _ => some (1, .leftParen, false)
  | ')', _ => some (1, .rightParen, false)
  | '[', _ => some (1, .leftBracket, false)
  | ']', _ => some (1, .rightBracket, false)
  | '{', _ => some (1, .leftBrace, false)
  | '}', _ => some (1, .rightBrace, false)
  | _, _ => none

/-! ## Tokens -/

/-- The next `length` characters, or those that are left, and the cursor behind them. -/
def take (cursor : Cursor) (length : Nat) : String × Cursor :=
  let stop := min (cursor.position + length) cursor.input.size
  (String.ofList (cursor.input.extract cursor.position stop).toList,
    { cursor with position := stop })

def makeToken (cursor : Cursor) (lexeme : String) (category : Category) (value : Option String) :
    Token × Cursor :=
  ({ id := cursor.nextId, lexeme, category, value, line := cursor.line },
    { cursor with nextId := cursor.nextId + 1 })

/-- A token that carries its text if `withValue` says so. -/
def operator (cursor : Cursor) (length : Nat) (category : Category) (withValue : Bool) :
    Token × Cursor :=
  let (lexeme, after) := cursor.take length
  after.makeToken lexeme category (if withValue then some lexeme else none)

def literal (cursor : Cursor) (length : Nat) (category : Category) : Token × Cursor :=
  let (text, after) := cursor.take length
  after.makeToken text category (some text)

def word (cursor : Cursor) : Token × Cursor :=
  let (word, after) := cursor.take (1 + cursor.countWhile 1 isWordChar)
  match Category.ofWord word with
  | .keyword capitals => after.makeToken word (.keyword capitals) none
  | category => after.makeToken word category (some word)

/-- The value drops the quotes. The token keeps the line on which it starts. -/
def stringLiteral (cursor : Cursor) (length : Nat) : Token × Cursor :=
  let line := cursor.line
  let (text, after) := cursor.take length
  ({ id := after.nextId
     lexeme := text
     category := .string
     value := some (String.ofList ((text.toList.drop 1).take (length - 2)))
     line },
   { after with line := after.line + text.toList.count '\n', nextId := after.nextId + 1 })

/-! ## Comments -/

/-- The newline that ends the comment is left for the loop, which counts it. -/
def skipLineComment (cursor : Cursor) : Cursor :=
  match _h : cursor.peek with
  | some c =>
    if c == '\n' then cursor else skipLineComment { cursor with position := cursor.position + 1 }
  | none => cursor
termination_by cursor.unread
decreasing_by have := lt_size_of_peekAhead _h; simp only [unread]; omega

/-- Step over one character of a block comment. -/
def skip (cursor : Cursor) (c : Char) : Cursor :=
  { cursor with
    position := cursor.position + 1
    line := if c == '\n' then cursor.line + 1 else cursor.line }

/-- Go behind the next `*/`. If there is none, the comment that starts on line `start` is open. -/
def skipToCommentEnd (start : Nat) (cursor : Cursor) : Cursor :=
  match _h : cursor.peek with
  | some c =>
    if c == '*' && cursor.peekAhead 1 == some '/' then
      { cursor with position := cursor.position + 2 }
    else skipToCommentEnd start (cursor.skip c)
  | none => { cursor with errors := cursor.errors ++ [⟨start, .unterminatedComment⟩] }
termination_by cursor.unread
decreasing_by have := lt_size_of_peekAhead _h; simp only [unread, skip]; omega

def skipBlockComment (cursor : Cursor) : Cursor :=
  skipToCommentEnd cursor.line { cursor with position := cursor.position + 2 }

/-! ## The loop -/

/-- One turn of the loop, with the cursor in front of `c`. -/
def turn (cursor : Cursor) (c : Char) : Option Token × Cursor :=
  if c == '\n' then
    (none, { cursor with position := cursor.position + 1, line := cursor.line + 1 })
  else if Text.isBlank c then
    (none, { cursor with position := cursor.position + 1 })
  else if let some length := cursor.floatLength? then (cursor.literal length .float).map some id
  else if let some length := cursor.hexLength? then (cursor.literal length .int).map some id
  else if let some length := cursor.octalLength? then (cursor.literal length .int).map some id
  else if let some length := cursor.decimalLength? then (cursor.literal length .int).map some id
  else if let some length := cursor.stringLength? then (cursor.stringLiteral length).map some id
  else if c == '/' && cursor.peekAhead 1 == some '/' then (none, cursor.skipLineComment)
  else if c == '/' && cursor.peekAhead 1 == some '*' then (none, cursor.skipBlockComment)
  else if let some (length, category, withValue) := punctuation? c (cursor.peekAhead 1) then
    (cursor.operator length category withValue).map some id
  else if isWordStart c then cursor.word.map some id
  else
    (none,
      { cursor with
        position := cursor.position + 1
        errors := cursor.errors ++ [⟨cursor.line, .unrecognized c⟩] })

/-! ## Every turn reads on -/

section
variable {cursor : Cursor} {c : Char} {length : Nat}

theorem unread_take_lt (h : cursor.peek = some c) (hl : 0 < length) :
    (cursor.take length).2.unread < cursor.unread := by
  have := lt_size_of_peekAhead h
  simp only [take, unread]
  omega

theorem pos_of_floatLength? (h : cursor.floatLength? = some length) : 0 < length := by
  have hplain : ∀ n, cursor.plainFloatLength? = some n → 0 < n := by
    intro n hn
    unfold plainFloatLength? at hn
    grind
  have hexponent : ∀ n, cursor.exponentFloatLength? = some n → 0 < n := by
    intro n hn
    unfold exponentFloatLength? exponentEnd? at hn
    grind
  unfold floatLength? at h
  split at h
  · rename_i plain exponent hp _
    have := hplain plain hp
    obtain rfl := Option.some.inj h
    omega
  · rcases Option.or_eq_some_iff.1 h with h | ⟨-, h⟩
    · exact hplain length h
    · exact hexponent length h

theorem pos_of_hexLength? (h : cursor.hexLength? = some length) : 0 < length := by
  unfold hexLength? at h
  grind

theorem pos_of_octalLength? (h : cursor.octalLength? = some length) : 0 < length := by
  unfold octalLength? at h
  grind

theorem pos_of_decimalLength? (h : cursor.decimalLength? = some length) : 0 < length := by
  unfold decimalLength? at h
  grind

theorem pos_of_stringLength? (h : cursor.stringLength? = some length) : 0 < length := by
  unfold stringLength? at h
  grind

theorem pos_of_punctuation? {next : Option Char} {category : Category} {withValue : Bool}
    (h : punctuation? c next = some (length, category, withValue)) : 0 < length := by
  unfold punctuation? at h
  grind

theorem unread_word_lt (h : cursor.peek = some c) : cursor.word.2.unread < cursor.unread := by
  have htake := unread_take_lt h (Nat.add_pos_left Nat.one_pos (cursor.countWhile 1 isWordChar))
  unfold word
  dsimp only
  split <;> exact htake

theorem unread_skipLineComment_le : cursor.skipLineComment.unread ≤ cursor.unread := by
  fun_induction skipLineComment cursor with
  | case1 => exact Nat.le_refl _
  | case2 cursor c h hc ih => exact Nat.le_trans ih (Nat.sub_le_sub_left (Nat.le_succ _) _)
  | case3 => exact Nat.le_refl _

theorem unread_skipToCommentEnd_le (start : Nat) :
    (skipToCommentEnd start cursor).unread ≤ cursor.unread := by
  fun_induction skipToCommentEnd start cursor with
  | case1 => exact Nat.sub_le_sub_left (Nat.le_add_right _ 2) _
  | case2 cursor c h hc ih => exact Nat.le_trans ih (Nat.sub_le_sub_left (Nat.le_succ _) _)
  | case3 => exact Nat.le_refl _

theorem unread_skipLineComment_lt (h : cursor.peek = some c) (hc : c ≠ '\n') :
    cursor.skipLineComment.unread < cursor.unread := by
  have hlt := lt_size_of_peekAhead h
  unfold skipLineComment
  split
  · rename_i d hd
    obtain rfl := Option.some.inj (h.symm.trans hd)
    rw [if_neg (by simpa using hc)]
    refine Nat.lt_of_le_of_lt unread_skipLineComment_le ?_
    simp only [unread]
    omega
  · rename_i hd
    exact absurd (h.symm.trans hd) (by simp)

theorem unread_skipBlockComment_lt (h : cursor.peek = some c) :
    cursor.skipBlockComment.unread < cursor.unread := by
  have hlt := lt_size_of_peekAhead h
  refine Nat.lt_of_le_of_lt (unread_skipToCommentEnd_le cursor.line) ?_
  simp only [unread]
  omega

theorem unread_turn_lt (h : cursor.peek = some c) : (cursor.turn c).2.unread < cursor.unread := by
  have hlt := lt_size_of_peekAhead h
  have hstep : cursor.input.size - (cursor.position + 1) < cursor.unread := by
    rw [unread]
    omega
  unfold turn
  repeat' split
  · exact hstep
  · exact hstep
  · rename_i hlength
    exact unread_take_lt h (pos_of_floatLength? hlength)
  · rename_i hlength
    exact unread_take_lt h (pos_of_hexLength? hlength)
  · rename_i hlength
    exact unread_take_lt h (pos_of_octalLength? hlength)
  · rename_i hlength
    exact unread_take_lt h (pos_of_decimalLength? hlength)
  · rename_i hlength
    exact unread_take_lt h (pos_of_stringLength? hlength)
  · rename_i hopener
    refine unread_skipLineComment_lt h ?_
    rintro rfl
    exact absurd hopener (by simp)
  · exact unread_skipBlockComment_lt h
  · rename_i hlength
    exact unread_take_lt h (pos_of_punctuation? hlength)
  · exact unread_word_lt h
  · exact hstep

end

/-- The tokens that are found from here on, and the cursor at the end of the text. -/
def scan (cursor : Cursor) : List Token × Cursor :=
  match _h : cursor.peek with
  | some c =>
    let found := cursor.turn c
    let later := found.2.scan
    (found.1.toList ++ later.1, later.2)
  | none => ([], cursor)
termination_by cursor.unread
decreasing_by exact unread_turn_lt _h

end Cursor
end FrontEnd
