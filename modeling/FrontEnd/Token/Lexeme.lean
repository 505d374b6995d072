import FrontEnd.Token.Category

/-! # Lexemes

Each recogniser takes the characters from some position on and returns the longest piece of its
class that starts there, if any.

* `float?`: `[0-9]+\.[0-9]+` or `[0-9]*\.[0-9]*[Ee][+-]?[0-9]+`.
* `integer?`: `0[xX][0-9a-fA-F]*`, `0[0-7]*` or `[1-9][0-9]*`.
* `quoted?`: `"[^"]*"` or `'[^']*'`; there are no escapes, and a quote that is never closed starts
  no lexeme.
* `operator?`: the operators and delimiters, two characters before one.
* `word?`: `[A-Za-z_][A-Za-z0-9_]*`.
* `Lexeme.first?`: the lexeme that starts here, the classes tried in this order.
-/

namespace FrontEnd
set_option autoImplicit false

/-! ## Numbers -/

def isOctalDigit (c : Char) : Bool := '0' ≤ c && c ≤ '7'

def isHexDigit (c : Char) : Bool :=
  c.isDigit || ('a' ≤ c && c ≤ 'f') || ('A' ≤ c && c ≤ 'F')

/-- Digits on both sides of the point. -/
def plainFloat? (s : List Char) : Option (List Char) :=
  let whole := s.takeWhile Char.isDigit
  match s.dropWhile Char.isDigit with
  | '.' :: after =>
    let fraction := after.takeWhile Char.isDigit
    if whole.isEmpty || fraction.isEmpty then none else some (whole ++ '.' :: fraction)
  | _ => none

/-- The sign that `s` starts with, or nothing. -/
def leadingSign (s : List Char) : List Char :=
  (s.take 1).filter fun c => c == '+' || c == '-'

/-- An exponent, `[Ee][+-]?[0-9]+`. -/
def exponent? : List Char → Option (List Char)
  | [] => none
  | e :: after =>
    let sign := leadingSign after
    let digits := (after.drop sign.length).takeWhile Char.isDigit
    if (e == 'e' || e == 'E') && !digits.isEmpty then some (e :: sign ++ digits) else none

/-- A point with an exponent after it; the digits around the point may be missing. -/
def exponentFloat? (s : List Char) : Option (List Char) :=
  match s.dropWhile Char.isDigit with
  | '.' :: after =>
    (exponent? (after.dropWhile Char.isDigit)).map fun exponent =>
      s.takeWhile Char.isDigit ++ '.' :: after.takeWhile Char.isDigit ++ exponent
  | _ => none

/-- Where both forms apply, the one with the exponent is longer. -/
def float? (s : List Char) : Option (List Char) :=
  (exponentFloat? s).or (plainFloat? s)

def integer? : List Char → Option (List Char)
  | [] => none
  | c :: s =>
    if c == '0' then
      match s with
      | 'x' :: digits => some ('0' :: 'x' :: digits.takeWhile isHexDigit)
      | 'X' :: digits => some ('0' :: 'X' :: digits.takeWhile isHexDigit)
      | digits => some ('0' :: digits.takeWhile isOctalDigit)
    else if c.isDigit then some (c :: s.takeWhile Char.isDigit)
    else none

/-! ## Strings, operators and words -/

def isQuote (c : Char) : Bool := c == '\x22' || c == '\x27'

def quoted? : List Char → Option (List Char)
  | [] => none
  | quote :: s =>
    if isQuote quote && s.contains quote then
      some (quote :: s.takeWhile (· != quote) ++ [quote])
    else none

/-- Two-character operators stand before the one-character operators that they start with. -/
def operators : List (List Char × Category) :=
  [(['=', '='], .relation), (['!', '='], .relation), (['<', '='], .relation),
   (['>', '='], .relation), (['+', '+'], .increment), (['-', '-'], .decrement),
   (['&', '&'], .and), (['|', '|'], .or),
   (['<'], .relation), (['>'], .relation), (['='], .assign), ([';'], .semicolon),
   ([','], .comma), (['+'], .plus), (['-'], .minus), (['*'], .star), (['/'], .divide),
   (['%'], .modulo), (['!'], .not), (['.'], .dot), (['('], .leftParen), ([')'], .rightParen),
   (['['], .leftBracket), ([']'], .rightBracket), (['{'], .leftBrace), (['}'], .rightBrace)]

def operator? (s : List Char) : Option (List Char × Category) :=
  operators.find? fun operator => operator.1.isPrefixOf s

def isWordStart (c : Char) : Bool := c.isAlpha || c == '_'

def isWordChar (c : Char) : Bool := c.isAlphanum || c == '_'

def word? : List Char → Option (List Char)
  | [] => none
  | c :: s => if isWordStart c then some (c :: s.takeWhile isWordChar) else none

/-! ## The lexeme at a position -/

structure Lexeme where
  text : List Char
  category : Category
deriving DecidableEq, Repr

namespace Lexeme

def first? (s : List Char) : Option Lexeme :=
  ((float? s).map fun text => ⟨text, .float⟩).or <|
  ((integer? s).map fun text => ⟨text, .int⟩).or <|
  ((quoted? s).map fun text => ⟨text, .string⟩).or <|
  ((operator? s).map fun operator => ⟨operator.1, operator.2⟩).or <|
  (word? s).map fun text => ⟨text, .ofWord (String.ofList text)⟩

/-- What a token carries besides its category: names, literals, type names and relations carry
their text, strings the text between the quotes, and all others nothing. -/
def value (lexeme : Lexeme) : Option String :=
  match lexeme.category with
  | .typeName | .identifier | .int | .float | .relation => some (String.ofList lexeme.text)
  | .string => some (String.ofList (lexeme.text.drop 1).dropLast)
  | _ => none

end Lexeme
end FrontEnd
