/-! # JSON values and their indented text

* `Json.object`: an object with its keys in ascending order.
* `Json.pretty`: two spaces per level, `": "` after a key, empty containers as `[]` and `{}`. Only
  the quote, the backslash and control characters are escaped.
-/

namespace FrontEnd
set_option autoImplicit false

inductive Json where
  | null
  | bool (b : Bool)
  | number (n : Nat)
  | string (s : String)
  | array (items : List Json)
  | fields (entries : List (String × Json))

namespace Json

def ofOption : Option String → Json
  | some s => string s
  | none => null

def strings (items : List String) : Json :=
  array (items.map string)

/-- The object with these entries, whose keys are distinct. -/
def object (entries : List (String × Json)) : Json :=
  fields (entries.mergeSort fun a b => decide (a.1 ≤ b.1))

/-! ## Text -/

/-- Four hexadecimal digits. -/
def codeUnit (n : Nat) : String :=
  String.ofList <| [n / 4096, n / 256, n / 16, n].map fun digit => Nat.digitChar (digit % 16)

def escapeChar (c : Char) : String :=
  match c with
  | '\x22' => "\\\""
  | '\\' => "\\\\"
  | '\n' => "\\n"
  | '\r' => "\\r"
  | '\t' => "\\t"
  | '\x08' => "\\b"
  | '\x0c' => "\\f"
  | c => if c.toNat < 0x20 then "\\u" ++ codeUnit c.toNat else String.singleton c

def quote (s : String) : String :=
  "\"" ++ String.join (s.toList.map escapeChar) ++ "\""

/-- A new line at indentation `depth` after `out`. -/
def newLine (depth : Nat) (out : String) : String := (out.push '\n').pushn ' ' (2 * depth)

mutual

/-- Writes a value after `out`; its first line stands at indentation `depth`. -/
def write (depth : Nat) (out : String) : Json → String
  | null => out ++ "null"
  | bool b => out ++ (if b then "true" else "false")
  | number n => out ++ toString n
  | string s => out ++ quote s
  | array [] => out ++ "[]"
  | array (item :: rest) =>
    let first := write (depth + 1) (newLine (depth + 1) (out.push '[')) item
    let items := writeItems (depth + 1) first rest
    (newLine depth items).push ']'
  | fields [] => out ++ "\x7b\x7d"
  | fields ((key, value) :: rest) =>
    let start := newLine (depth + 1) (out.push '{') ++ quote key ++ ": "
    let entries := writeEntries (depth + 1) (write (depth + 1) start value) rest
    (newLine depth entries).push '}'

def writeItems (depth : Nat) (out : String) : List Json → String
  | [] => out
  | item :: rest => writeItems depth (write depth (newLine depth (out.push ',')) item) rest

def writeEntries (depth : Nat) (out : String) : List (String × Json) → String
  | [] => out
  | (key, value) :: rest =>
    let start := newLine depth (out.push ',') ++ quote key ++ ": "
    writeEntries depth (write depth start value) rest

end

def pretty (value : Json) : String := write 0 "" value

end Json
end FrontEnd
