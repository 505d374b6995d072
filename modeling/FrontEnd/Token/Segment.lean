import FrontEnd.Text.Blank
import FrontEnd.Token.Lexeme

/-! # Segments of a source text

A source text is a sequence of segments: newlines, blanks, comments, lexemes, and characters that
fit nowhere.

* `Segment.first c s`: the segment at the front of `c :: s`.
* `segments`: the partition of a text.
-/

namespace FrontEnd
set_option autoImplicit false

inductive Segment where
  | newline
  | blank (c : Char)
  /-- From `//` up to the end of the line, the newline left out. -/
  | lineComment (text : List Char)
  /-- From `/*` to the first `*/` after it. -/
  | blockComment (text : List Char)
  /-- From a `/*` that is never closed to the end of the text. -/
  | openComment (text : List Char)
  | lexeme (lexeme : Lexeme)
  | unrecognized (c : Char)
deriving DecidableEq, Repr

/-- The part of `s` that ends with its first `*/`. -/
def throughCommentEnd? : List Char → Option (List Char)
  | [] => none
  | '*' :: '/' :: _ => some ['*', '/']
  | c :: s => (throughCommentEnd? s).map (c :: ·)

namespace Segment

def text : Segment → List Char
  | newline => ['\n']
  | blank c | unrecognized c => [c]
  | lineComment text | blockComment text | openComment text => text
  | lexeme l => l.text

def newlines (segment : Segment) : Nat := segment.text.count '\n'

/-- The comment at the front of a text. -/
def comment? : List Char → Option Segment
  | '/' :: '/' :: s => some (lineComment ('/' :: '/' :: s.takeWhile (· != '\n')))
  | '/' :: '*' :: s =>
    match throughCommentEnd? s with
    | some body => some (blockComment ('/' :: '*' :: body))
    | none => some (openComment ('/' :: '*' :: s))
  | _ => none

def first (c : Char) (s : List Char) : Segment :=
  if c == '\n' then newline
  else if Text.isBlank c then blank c
  else
    match comment? (c :: s) with
    | some comment => comment
    | none =>
      match Lexeme.first? (c :: s) with
      | some l => lexeme l
      | none => unrecognized c

end Segment

def segments : List Char → List Segment
  | [] => []
  | c :: s =>
    let segment := Segment.first c s
    segment :: segments (s.drop (segment.text.length - 1))
termination_by s => s.length
decreasing_by simp only [List.length_drop, List.length_cons]; omega

end FrontEnd
