import FrontEnd.Compilation
import FrontEnd.Json

/-! # Results as JSON

The JSON form of everything the front end reports, one `json` function per type.
-/

namespace FrontEnd
set_option autoImplicit false

def Token.json (token : Token) : Json :=
  .object
    [("id", .number token.id), ("lexeme", .string token.lexeme),
     ("category", .string token.category.name), ("value", .ofOption token.value),
     ("line", .number token.line)]

def Diagnostic.json : Diagnostic → Json
  | unrecognized line character =>
    .object [("kind", .string "lexical"), ("line", .number line),
      ("character", .string (String.singleton character))]
  | unterminatedComment line =>
    .object [("kind", .string "unterminated_comment"), ("line", .number line)]
  | syntactic line note =>
    .object [("kind", .string "syntax"), ("line", .number line), ("note", .string note)]
  | semantic line message =>
    .object [("kind", .string "semantic"), ("line", .number line), ("message", .string message)]
  | conflict nonterminal terminal existing incoming =>
    .object [("kind", .string "grammar_conflict"), ("nonterminal", .string nonterminal),
      ("terminal", .string terminal), ("existing", .number existing),
      ("incoming", .number incoming)]

/-! ## Trees -/

mutual

/-- An absent value and an empty list of children are left out. -/
def Tree.json : Tree → Json
  | ⟨symbol, line, value, children⟩ =>
    .object <|
      [("type", .string symbol), ("line", .number line)] ++
      (match value with
        | some value => [("value", .string value)]
        | none => []) ++
      (if children.isEmpty then [] else [("children", .array (Tree.forestJson children))])

def Tree.forestJson : List Tree → List Json
  | [] => []
  | tree :: trees => tree.json :: Tree.forestJson trees

end

/-! ## Grammars -/

def SymbolSet.json (set : SymbolSet) : Json := .strings set.toList

def Cell.json : Cell → Json
  | expand index => .number index
  | synch => .string "synch"

def Table.json (table : Table) : Json :=
  .object <| table.rows.toList.map fun row =>
    (row.1, .object (row.2.toList.map fun cell => (cell.1, cell.2.json)))

/-- FIRST and FOLLOW of each nonterminal of `g`, in order. -/
def Sets.rowsJson (sets : Sets) (g : Grammar) : Json :=
  .array <| g.nonterminals.map fun nonterminal =>
    .object [("nonterminal", .string nonterminal),
      ("first", SymbolSet.json (sets.first.lookup nonterminal)),
      ("follow", SymbolSet.json (sets.follow.lookup nonterminal))]

/-- SELECT of each rule of `g`, in order, as one text. -/
def Sets.selectJson (sets : Sets) (g : Grammar) : Json :=
  .array <| (g.rules.zip sets.select).zipIdx.map fun entry =>
    .object [("index", .number entry.2), ("production", .string entry.1.1.text),
      ("select", .string (" ".intercalate entry.1.2.toList))]

/-! ## Symbols, code and compilations -/

def SymbolTable.json (table : SymbolTable) : Json :=
  .array <| table.entries.map fun entry =>
    .object [("name", .string entry.1), ("type", .string entry.2.text)]

def Quad.entries (quad : Quad) : List (String × Json) :=
  [("op", .string quad.op), ("arg1", .string quad.arg1), ("arg2", .string quad.arg2),
   ("result", .string quad.result)]

def Code.json (code : Code) : Json :=
  .array <| code.lines.map fun line =>
    .object <|
      [("index", .number line.1), ("text", .string line.2.text)] ++ line.2.quad.entries

def Compilation.json (c : Compilation) : Json :=
  .object
    [("tokens", .array (c.tokens.map (·.json))), ("tree", c.parsed.tree.json),
     ("complete", .bool c.parsed.complete), ("symbols", c.lowered.symbols.json),
     ("code", c.lowered.code.json), ("diagnostics", .array (c.diagnostics.map (·.json)))]

end FrontEnd
