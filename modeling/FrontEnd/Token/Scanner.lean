import FrontEnd.Diagnostic
import FrontEnd.Token.Segment

/-! # Tokens

A scanner holds the source text that is still unread, the current line and the next token number.

* `tokensFrom`, `errorsFrom`: the tokens and the complaints of a sequence of segments. A token or
  complaint carries the line on which its segment starts.
* `Scanner.scan`: read all that is left.
* `tokenize`: the tokens of a source text and the complaints about it.

The loop that does this position by position is in `Token/Cursor`.
-/

namespace FrontEnd
set_option autoImplicit false

structure Token where
  /-- Tokens of one scanner are numbered from 1. -/
  id : Nat
  lexeme : String
  category : Category
  value : Option String
  line : Nat
deriving DecidableEq, Repr

def Token.ofLexeme (id line : Nat) (lexeme : Lexeme) : Token where
  id := id
  lexeme := String.ofList lexeme.text
  category := lexeme.category
  value := lexeme.value
  line := line

/-- The category, with the value in parentheses if there is one. -/
def Token.text (token : Token) : String :=
  match token.value with
  | some value => token.category.name ++ "(" ++ value ++ ")"
  | none => token.category.name

inductive LexicalFault where
  | unrecognized (c : Char)
  | unterminatedComment
deriving DecidableEq, Repr

structure LexicalError where
  line : Nat
  fault : LexicalFault
deriving DecidableEq, Repr

def LexicalError.report (error : LexicalError) : Diagnostic :=
  match error.fault with
  | .unrecognized c => .unrecognized error.line c
  | .unterminatedComment => .unterminatedComment error.line

/-! ## What segments yield -/

def tokensFrom (id line : Nat) : List Segment → List Token
  | [] => []
  | segment :: rest =>
    match segment with
    | .lexeme lexeme =>
      Token.ofLexeme id line lexeme :: tokensFrom (id + 1) (line + segment.newlines) rest
    | _ => tokensFrom id (line + segment.newlines) rest

def Segment.fault? : Segment → Option LexicalFault
  | .unrecognized c => some (.unrecognized c)
  | .openComment _ => some .unterminatedComment
  | _ => none

def errorsFrom (line : Nat) : List Segment → List LexicalError
  | [] => []
  | segment :: rest =>
    let later := errorsFrom (line + segment.newlines) rest
    match segment.fault? with
    | some fault => ⟨line, fault⟩ :: later
    | none => later

/-! ## Scanning -/

structure Scanner where
  unread : List Char
  line : Nat := 1
  nextId : Nat := 1
  errors : List LexicalError := []

namespace Scanner

def ofText (source : String) : Scanner where
  unread := source.toList

def scan (scanner : Scanner) : List Token × Scanner :=
  let parts := segments scanner.unread
  let tokens := tokensFrom scanner.nextId scanner.line parts
  (tokens,
   { unread := []
     line := scanner.line + scanner.unread.count '\n'
     nextId := scanner.nextId + tokens.length
     errors := scanner.errors ++ errorsFrom scanner.line parts })

end Scanner

def tokenize (source : String) : List Token × List LexicalError :=
  let result := (Scanner.ofText source).scan
  (result.1, result.2.errors)

end FrontEnd
