import FrontEnd.Compilation

/-! # Results as text

The listings of the command line. Columns are padded by character count.
-/

namespace FrontEnd
set_option autoImplicit false

def padRight (width : Nat) (text : String) : String := text.pushn ' ' (width - text.length)

def padLeft (width : Nat) (text : String) : String := "".pushn ' ' (width - text.length) ++ text

def unlines (lines : List String) : String := String.join (lines.map (· ++ "\n"))

def indented (lines : List String) : List String := lines.map ("  " ++ ·)

/-- A list between braces. -/
def braced (separator : String) (items : List String) : String :=
  "\x7b" ++ separator.intercalate items ++ "\x7d"

/-- The complaints under a heading of their own, if there are any. -/
def diagnosticsBlock (diagnostics : List Diagnostic) : List String :=
  if diagnostics.isEmpty then []
  else "" :: "Diagnostics:" :: indented (diagnostics.map (·.text))

/-- Number, line, category and text of a token. -/
def Token.listing (token : Token) : String :=
  padLeft 4 (toString token.id) ++ "  line " ++ padRight 4 (toString token.line) ++ " " ++
    padRight 10 token.category.name ++ " " ++ token.lexeme

def tokensText (tokens : List Token) (diagnostics : List Diagnostic) : String :=
  unlines (tokens.map (·.listing) ++ diagnosticsBlock diagnostics)

def parseText (tree : Tree) (diagnostics : List Diagnostic) : String :=
  unlines (tree.render ++ diagnosticsBlock diagnostics)

def Compilation.text (c : Compilation) : String :=
  unlines <|
    "Symbols:" :: indented c.lowered.symbols.render ++
    "" :: "Code:" :: indented c.lowered.code.render ++ diagnosticsBlock c.diagnostics

/-! ## Grammars -/

def Cell.text : Cell → String
  | expand index => toString index
  | synch => "synch"

def Sets.rowLines (sets : Sets) (g : Grammar) : List String :=
  g.nonterminals.map fun nonterminal =>
    "  " ++ padRight 24 nonterminal ++
      " FIRST " ++ braced ", " (sets.first.lookup nonterminal).toList ++
      "  FOLLOW " ++ braced ", " (sets.follow.lookup nonterminal).toList

def Sets.selectLines (sets : Sets) (g : Grammar) : List String :=
  (g.rules.zip sets.select).zipIdx.map fun entry =>
    padLeft 4 (toString entry.2) ++ "  " ++ padRight 48 entry.1.1.text ++ " " ++
      braced " " entry.1.2.toList

def Table.lines (table : Table) : List String :=
  table.rows.toList.map fun row =>
    "  " ++ padRight 24 row.1 ++ " " ++
      " ".intercalate (row.2.toList.map fun cell => cell.1 ++ "=" ++ cell.2.text)

def PreparedGrammar.text (g : PreparedGrammar) : String :=
  unlines <|
    "Left-factored:" :: g.factored.rules.map (fun rule => "      " ++ rule.text) ++
    "" :: "Normalized:" ::
      g.normalized.rules.zipIdx.map
        (fun entry => padLeft 4 (toString entry.2) ++ "  " ++ entry.1.text) ++
    "" :: "FIRST / FOLLOW:" :: g.sets.rowLines g.normalized ++
    "" :: "SELECT:" :: g.sets.selectLines g.normalized ++
    "" :: "Table:" :: g.table.lines ++
    diagnosticsBlock (g.table.conflicts.map (·.report))

end FrontEnd
