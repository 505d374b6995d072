import FrontEnd.Parse.Arena
import FrontEnd.Parse.Outcome

/-! # Parsing with a stack

The same parse with flat data: the tree is kept in an arena, and a stack holds the symbols that are
still to be matched, each with the node that it fills. The end marker is at the bottom.

* `StackState.choose`: what the predictive table says for the symbol on top.
* `StackState.step?`: carries it out; there is no step once only the end marker is left or the
  input is used up.
* `StackState.Reached`: the states of a parse.
* `StackState.outcome`: the result, once there is no step any more.
-/

namespace FrontEnd
set_option autoImplicit false

/-- A symbol to be matched and the node that it fills. -/
structure Frame where
  symbol : Symbol
  node : Nat
deriving DecidableEq, Repr

/-- The frames of children, the first one on top. -/
def Frame.ofChildren (symbols : List Symbol) (nodes : List Nat) : List Frame :=
  (symbols.zip nodes).map fun child => ⟨child.1, child.2⟩

theorem Frame.nodes_ofChildren {symbols : List Symbol} {nodes : List Nat}
    (h : nodes.length ≤ symbols.length) : (ofChildren symbols nodes).map (·.node) = nodes := by
  rw [ofChildren, List.map_map]
  exact List.map_snd_zip h

theorem Frame.symbols_ofChildren {symbols : List Symbol} {nodes : List Nat}
    (h : symbols.length ≤ nodes.length) : (ofChildren symbols nodes).map (·.symbol) = symbols := by
  rw [ofChildren, List.map_map]
  exact List.map_fst_zip h

structure StackState where
  arena : Arena
  /-- The innermost frame comes first. -/
  stack : List Frame
  position : Nat
  errors : List SyntaxError
  node_lt : ∀ frame ∈ stack, frame.node < arena.size

namespace StackState

/-- The terminals and the end marker, on the line of the last one. -/
def inputOf (terminals : List Terminal) : List Terminal :=
  terminals ++ [⟨endMarker, none, (terminals.getLast?.map (·.line)).getD 1⟩]

def start (g : PreparedGrammar) : StackState where
  arena := .root g.normalized.start
  stack := [⟨g.normalized.start, 0⟩, ⟨endMarker, 0⟩]
  position := 0
  errors := []
  node_lt := by simp [Arena.root, Arena.size]

/-! ## Choosing -/

def choose (g : PreparedGrammar) (s : StackState) (top : Frame) (found : Symbol) : Action :=
  if g.normalized.isNonterminal top.symbol then
    match g.table.cell? top.symbol found with
    | none => .skip
    | some .synch => .synch
    | some (.expand index) =>
      if s.arena.reopens top.node s.position then .cut else .expand index
  else if top.symbol == epsilon then .vanish
  else if top.symbol == found then .accept
  else .replace

/-! ## Carrying out -/

def addError (s : StackState) (line : Nat) (fault : SyntaxFault) : StackState :=
  { s with errors := s.errors ++ [⟨line, fault⟩] }

def advance (s : StackState) : StackState := { s with position := s.position + 1 }

section
variable (s : StackState) {top : Frame} {rest : List Frame} (hs : s.stack = top :: rest)
include hs

theorem top_lt : top.node < s.arena.size := s.node_lt top (by simp [hs])

theorem rest_lt : ∀ frame ∈ rest, frame.node < s.arena.size :=
  fun frame hf => s.node_lt frame (by simp [hs, hf])

/-- Drops the frame on top; its node is on this line. -/
def pop (line : Nat) : StackState where
  arena := s.arena.setLine top.node line
  stack := rest
  position := s.position
  errors := s.errors
  node_lt frame hf := by
    rw [Arena.size_setLine]
    exact s.rest_lt hs frame hf

/-- Drops the frame on top; its node also gets a value. -/
def fill (line : Nat) (value : Option String) : StackState where
  arena := (s.arena.setLine top.node line).setValue top.node value
  stack := rest
  position := s.position
  errors := s.errors
  node_lt frame hf := by
    rw [Arena.size_setValue, Arena.size_setLine]
    exact s.rest_lt hs frame hf

/-- Opens the node on top and puts its children in its place, the first one on top. -/
def expand (line : Nat) (production : List Symbol) : StackState :=
  let opened := (s.arena.setLine top.node line).markOpened top.node s.position
  have hsize : opened.size = s.arena.size := by
    rw [Arena.size_markOpened, Arena.size_setLine]
  have htop : top.node < opened.size := hsize ▸ s.top_lt hs
  let grown := opened.addChildren top.node htop production
  { arena := grown.2
    stack := Frame.ofChildren production grown.1 ++ rest
    position := s.position
    errors := s.errors
    node_lt := by
      intro frame hf
      rw [Arena.size_addChildren, hsize]
      rcases List.mem_append.1 hf with hf | hf
      · obtain ⟨child, hc, rfl⟩ := List.mem_map.1 hf
        have hn := (List.of_mem_zip hc).2
        rw [Arena.addChildren_fst, List.mem_range'_1, hsize] at hn
        exact hn.2
      · exact Nat.lt_add_right _ (s.rest_lt hs frame hf) }

theorem stack_expand (line : Nat) (production : List Symbol) :
    (s.expand hs line production).stack =
      Frame.ofChildren production (List.range' s.arena.size production.length) ++ rest := by
  unfold expand
  dsimp only
  rw [Arena.addChildren_fst, Arena.size_markOpened, Arena.size_setLine]

def apply (g : PreparedGrammar) (next : Terminal) : Action → StackState
  | .expand index => s.expand hs next.line (g.normalized.production index)
  | .cut => (s.pop hs next.line).addError next.line (.cycle top.symbol)
  | .synch => (s.pop hs next.line).addError next.line (.synchronized top.symbol next.symbol)
  | .skip => s.advance.addError next.line (.noEntry top.symbol next.symbol)
  | .vanish => s.pop hs next.line
  | .accept => (s.fill hs next.line next.value).advance
  | .replace =>
    ((s.pop hs next.line).advance).addError next.line (.mismatch top.symbol next.symbol)

end

def step? (g : PreparedGrammar) (terminals : List Terminal) (s : StackState) : Option StackState :=
  match hs : s.stack with
  | top :: _ :: _ =>
    (inputOf terminals)[s.position]?.map fun next =>
      s.apply hs g next (s.choose g top next.symbol)
  | _ => none

/-- The states that a parse of the terminals can be in. -/
inductive Reached (g : PreparedGrammar) (terminals : List Terminal) : StackState → Prop
  | start : Reached g terminals (start g)
  | step {s t : StackState} (hr : Reached g terminals s) (h : s.step? g terminals = some t) :
      Reached g terminals t

/-- The state after so many steps, or the last one if there are fewer. -/
def after (g : PreparedGrammar) (terminals : List Terminal) : Nat → StackState
  | 0 => start g
  | count + 1 =>
    ((after g terminals count).step? g terminals).getD (after g terminals count)

theorem reached_after (g : PreparedGrammar) (terminals : List Terminal) (count : Nat) :
    Reached g terminals (after g terminals count) := by
  induction count with
  | zero => exact .start
  | succ count ih =>
    rw [after]
    cases h : (after g terminals count).step? g terminals with
    | none => exact ih
    | some t => exact ih.step h

/-! ## Outcome -/

/-- The complaint about what is left before the end marker when only that is on the stack. -/
def trailing (terminals : List Terminal) (s : StackState) : List SyntaxError :=
  match s.stack, terminals[s.position]? with
  | _ :: _ :: _, _ => []
  | _, some next => [⟨next.line, .trailing next.symbol⟩]
  | _, none => []

def outcome (terminals : List Terminal) (s : StackState) : ParseOutcome where
  tree := s.arena.toTree
  consumed := min s.position terminals.length
  complete := s.position == terminals.length
  errors := s.errors ++ s.trailing terminals

end StackState
end FrontEnd
