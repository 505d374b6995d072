import FrontEnd.Ty
import Std.Data.TreeMap

/-! # The symbol table

A single flat scope: entries in the order of their declarations, none ever removed, and an index
that leads from each name to its entry.

* `SymbolTable.get?`: the type of a name.
* `SymbolTable.insert?`: declares a name, unless it is declared already.
-/

namespace FrontEnd
set_option autoImplicit false

structure SymbolTable where
  entries : List (String × Ty)
  /-- The place of every name among the entries. -/
  index : Std.TreeMap String Nat
  indexed : ∀ (name : String) (place : Nat),
    index[name]? = some place ↔ (entries.map (·.1))[place]? = some name

namespace SymbolTable

def empty : SymbolTable := ⟨[], ∅, by simp⟩

def names (table : SymbolTable) : List String := table.entries.map (·.1)

def get? (table : SymbolTable) (name : String) : Option Ty := do
  let place ← table.index[name]?
  let entry ← table.entries[place]?
  return entry.2

def contains (table : SymbolTable) (name : String) : Bool := table.index.contains name

def size (table : SymbolTable) : Nat := table.entries.length

theorem contains_iff {table : SymbolTable} {name : String} :
    table.contains name = true ↔ name ∈ table.names := by
  rw [contains, Std.TreeMap.contains_eq_isSome_getElem?, Option.isSome_iff_exists,
    List.mem_iff_getElem?]
  exact exists_congr (table.indexed name)

theorem getElem?_concat_eq_some_iff {names : List String} {name other : String} {place : Nat} :
    (names ++ [name])[place]? = some other ↔
      names[place]? = some other ∨ place = names.length ∧ name = other := by
  rw [List.getElem?_append]
  split
  · rename_i hlt
    exact (or_iff_left fun h => Nat.ne_of_lt hlt h.1).symm
  · rename_i hge
    have hle := Nat.le_of_not_lt hge
    have hzero : place - names.length = 0 ↔ place = names.length := by omega
    rw [List.getElem?_eq_none hle, List.getElem?_singleton]
    simp [hzero]

/-- A new name gets the place behind the others. -/
theorem indexed_insert {table : SymbolTable} {name : String} (h : name ∉ table.names)
    (type : Ty) (other : String) (place : Nat) :
    (table.index.insert name table.entries.length)[other]? = some place ↔
      ((table.entries ++ [(name, type)]).map (·.1))[place]? = some other := by
  have hlast : (table.entries.map (·.1)).length = table.entries.length := List.length_map _
  rw [List.map_append, List.map_singleton, getElem?_concat_eq_some_iff, ← table.indexed, hlast,
    Std.TreeMap.getElem?_insert]
  by_cases he : name = other
  · subst he
    have hnone : table.index[name]? ≠ some place := fun hp =>
      h (List.mem_of_getElem? ((table.indexed name place).1 hp))
    simp [hnone, eq_comm]
  · simp [he]

def insert? (table : SymbolTable) (name : String) (type : Ty) : Option SymbolTable :=
  if h : table.contains name then none
  else
    some
      { entries := table.entries ++ [(name, type)]
        index := table.index.insert name table.entries.length
        indexed := indexed_insert (mt contains_iff.2 h) type }

/-- One line per entry. -/
def render (table : SymbolTable) : List String :=
  table.entries.map fun entry => entry.1 ++ ": " ++ entry.2.text

end SymbolTable
end FrontEnd
