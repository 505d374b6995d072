import FrontEnd.Diagnostic
import FrontEnd.Grammar.Sets

/-! # The predictive table

A cell says what to do with a nonterminal on top when a terminal comes next.

* `Table.ofSets`: every rule claims the cells that it selects. The first claim stands; the second
  claim on a cell is a conflict, and later ones are passed over. A free cell whose terminal may
  follow the nonterminal becomes a synchronisation point.
* `Table.cell?`: a look-up.
-/

namespace FrontEnd
set_option autoImplicit false

inductive Cell where
  /-- Expand with the rule of this index. -/
  | expand (index : Nat)
  /-- Drop the nonterminal and keep the input. -/
  | synch
deriving DecidableEq, Repr

structure Conflict where
  nonterminal : Symbol
  terminal : Symbol
  existing : Nat
  incoming : Nat
deriving DecidableEq, Repr

def Conflict.report (conflict : Conflict) : Diagnostic :=
  .conflict conflict.nonterminal conflict.terminal conflict.existing conflict.incoming

structure Table where
  rows : Std.TreeMap Symbol (Std.TreeMap Symbol Cell)
  conflicts : List Conflict

namespace Table

def row (table : Table) (nonterminal : Symbol) : Std.TreeMap Symbol Cell :=
  table.rows.getD nonterminal ∅

def cell? (table : Table) (nonterminal terminal : Symbol) : Option Cell :=
  (table.row nonterminal)[terminal]?

/-- The number of filled cells. -/
def size (table : Table) : Nat := total (·.size) table.rows.values

/-! ## Filling -/

/-- One empty row per nonterminal. -/
def empty (nonterminals : List Symbol) : Table where
  rows := .ofList (nonterminals.map fun nonterminal => (nonterminal, ∅))
  conflicts := []

def put (nonterminal terminal : Symbol) (cell : Cell) (table : Table) : Table :=
  let row := (table.row nonterminal).insert terminal cell
  { table with rows := table.rows.insert nonterminal row }

def isReported (table : Table) (nonterminal terminal : Symbol) : Bool :=
  table.conflicts.any fun conflict =>
    conflict.nonterminal == nonterminal && conflict.terminal == terminal

/-- Rule `index` of `nonterminal` claims the cell of `terminal`. -/
def claim (nonterminal : Symbol) (index : Nat) (table : Table) (terminal : Symbol) : Table :=
  match table.cell? nonterminal terminal with
  | none => table.put nonterminal terminal (.expand index)
  | some (.expand existing) =>
    if table.isReported nonterminal terminal then table
    else { table with conflicts := table.conflicts ++ [⟨nonterminal, terminal, existing, index⟩] }
  | some .synch => table

def synchronize (nonterminal : Symbol) (table : Table) (terminal : Symbol) : Table :=
  match table.cell? nonterminal terminal with
  | none => table.put nonterminal terminal .synch
  | some _ => table

def ofSets (g : Grammar) (sets : Sets) : Table :=
  let claimed := (g.rules.zip sets.select).zipIdx.foldl
    (fun table entry => entry.1.2.toList.foldl (claim entry.1.1.left entry.2) table)
    (empty g.nonterminals)
  g.nonterminals.foldl
    (fun table nonterminal =>
      (sets.follow.lookup nonterminal).toList.foldl (synchronize nonterminal) table)
    claimed

end Table
end FrontEnd
