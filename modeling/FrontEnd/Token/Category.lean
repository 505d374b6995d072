/-! # Token categories

A token's category is the terminal that grammars refer to.

* `Category.name`: the terminal's name in a grammar.
* `Category.ofWord`: the category of an identifier-shaped word. The names of primitive types share
  `TYPE`; every other reserved word is a category of its own, named by the word in capitals; all
  else is `ID`.
-/

namespace FrontEnd
set_option autoImplicit false

inductive Category where
  | typeName | identifier | int | float | string
  | semicolon | comma | assign | relation
  | plus | minus | star | divide | modulo | increment | decrement
  | and | or | not | dot
  | leftParen | rightParen | leftBracket | rightBracket | leftBrace | rightBrace
  | keyword (capitals : String)
deriving DecidableEq, Repr

namespace Category

def name : Category → String
  | typeName => "TYPE"
  | identifier => "ID"
  | int => "INT"
  | float => "FLOAT"
  | string => "STRING"
  | semicolon => "SEMI"
  | comma => "COMMA"
  | assign => "ASSIGNOP"
  | relation => "RELOP"
  | plus => "PLUS"
  | minus => "MINUS"
  | star => "STAR"
  | divide => "DIV"
  | modulo => "MOD"
  | increment => "INCREMENT"
  | decrement => "DECREMENT"
  | and => "AND"
  | or => "OR"
  | not => "NOT"
  | dot => "DOT"
  | leftParen => "LP"
  | rightParen => "RP"
  | leftBracket => "LB"
  | rightBracket => "RB"
  | leftBrace => "LC"
  | rightBrace => "RC"
  | keyword capitals => capitals

/-! ## Reserved words -/

def typeNames : List String :=
  ["char", "double", "float", "int", "long", "short", "void"]

def keywords : List String :=
  ["auto", "break", "case", "const", "continue", "default", "do", "else", "enum", "extern", "for",
   "goto", "if", "register", "return", "signed", "sizeof", "static", "struct", "switch", "typedef",
   "union", "unsigned", "volatile", "while"]

def ofWord (word : String) : Category :=
  if word ∈ typeNames then typeName
  else if word ∈ keywords then keyword word.toUpper
  else identifier

theorem ofWord_cases (word : String) :
    ofWord word = typeName ∨ (∃ w ∈ keywords, ofWord word = keyword w.toUpper) ∨
      ofWord word = identifier := by
  unfold ofWord
  by_cases h : word ∈ typeNames
  · exact Or.inl (if_pos h)
  · rw [if_neg h]
    by_cases hk : word ∈ keywords
    · exact Or.inr (Or.inl ⟨word, hk, if_pos hk⟩)
    · exact Or.inr (Or.inr (if_neg hk))

end Category
end FrontEnd
