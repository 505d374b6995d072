import FrontEnd.Grammar.Rule
import FrontEnd.Tree

/-! # Trees under construction

A tree that is built from the left is either complete or has a focus, the symbol to be worked on
next. The focus sits inside opened nodes, the innermost first; each has its finished children on
the left and the symbols still waiting on the right.

* `PartialTree.expand`: gives the focus children and moves to the first of them.
* `PartialTree.fill`: puts a finished tree at the focus and moves to the next symbol in preorder.
* `PartialTree.toTree`: the tree so far; what was never reached becomes a bare node on line 0, or
  on line 1 if it is the root.
* `reopens`: whether a symbol was opened around the focus with no input in between.
-/

namespace FrontEnd
set_option autoImplicit false

structure OpenNode where
  symbol : Symbol
  line : Nat
  /-- The position in the input at which the node was opened. -/
  openedAt : Nat
  done : List Tree
  waiting : List Symbol

namespace OpenNode

/-- The node with its finished children followed by `trees`. -/
def close (node : OpenNode) (trees : List Tree) : Tree :=
  ⟨node.symbol, node.line, none, node.done ++ trees⟩

end OpenNode

abbrev Path := List OpenNode

/-- Whether one of the innermost nodes that were opened at `position` carries `symbol`. -/
def Path.reopens (path : Path) (symbol : Symbol) (position : Nat) : Bool :=
  (path.takeWhile (·.openedAt == position)).any (·.symbol == symbol)

inductive PartialTree where
  | complete (tree : Tree)
  | focused (path : Path) (focus : Symbol)

namespace PartialTree

def fill (tree : Tree) : Path → PartialTree
  | [] => complete tree
  | node :: path =>
    match node.waiting with
    | [] => fill (node.close [tree]) path
    | next :: waiting => focused ({ node with done := node.done ++ [tree], waiting } :: path) next

/-- The focus becomes an opened node with these children; without any it is finished. -/
def expand (path : Path) (symbol : Symbol) (line position : Nat) : List Symbol → PartialTree
  | [] => fill (.bare symbol line) path
  | first :: waiting => focused (⟨symbol, line, position, [], waiting⟩ :: path) first

/-- Closes all opened nodes around `tree`. -/
def assemble (tree : Tree) : Path → Tree
  | [] => tree
  | node :: path => assemble (node.close (tree :: node.waiting.map (Tree.bare · 0))) path

def toTree : PartialTree → Tree
  | complete tree => tree
  | focused [] focus => .bare focus 1
  | focused path focus => assemble (.bare focus 0) path

end PartialTree
end FrontEnd
