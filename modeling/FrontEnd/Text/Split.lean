import FrontEnd.Text.Blank

/-! # Cutting text at lines, blanks and arrows

Texts are lists of characters.

* `lines`: the pieces between newlines; a carriage return before a newline stays in its piece and
  is a blank there.
* `trim`: the text without blanks at either end.
* `words`: the maximal blank-free pieces.
* `cutAtArrow?`: what stands before and after the first `->`.
-/

namespace FrontEnd.Text
set_option autoImplicit false

def lines (text : List Char) : List (List Char) :=
  text.splitOnP (· == '\n')

def trim (text : List Char) : List Char :=
  ((text.dropWhile isBlank).reverse.dropWhile isBlank).reverse

def words (text : List Char) : List (List Char) :=
  (text.splitOnP isBlank).filter fun word => !word.isEmpty

/-- Gives `none` when the text holds no `->`. -/
def cutAtArrow? : List Char → Option (List Char × List Char)
  | [] => none
  | '-' :: '>' :: after => some ([], after)
  | c :: text => (cutAtArrow? text).map fun sides => (c :: sides.1, sides.2)

end FrontEnd.Text
