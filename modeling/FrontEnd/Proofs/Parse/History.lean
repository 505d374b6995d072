import FrontEnd.Proofs.Parse.Run

/-! # What a parser did

Every step works on one focus with one terminal next and takes one action. The history of a parse
lists these, and says which complaints there were and which terminals were used.

* `Event`: one step; `Event.error?`: its complaint, `Event.fate?`: what became of the terminal if
  it was used.
* `ParseState.History`: the events that lead from one state to another.
* `ParseState.History.errors_eq`: the complaints are those of the events.
* `ParseState.History.used_eq`: the terminals before the end marker that were used.
-/

namespace FrontEnd
set_option autoImplicit false

/-! ## Events -/

structure Event where
  /-- The number of terminals that were used before. -/
  position : Nat
  focus : Symbol
  next : Terminal
  action : Action

/-- What becomes of a terminal that is used. -/
inductive Fate where
  | matched
  /-- The terminal is dropped, with a symbol of the grammar or without one. -/
  | skipped
deriving DecidableEq, Repr

namespace Event

def fate? (event : Event) : Option Fate :=
  match event.action with
  | .accept => some .matched
  | .skip | .replace => some .skipped
  | .expand _ | .cut | .synch | .vanish => none

def fault? (event : Event) : Option SyntaxFault :=
  match event.action with
  | .cut => some (.cycle event.focus)
  | .synch => some (.synchronized event.focus event.next.symbol)
  | .skip => some (.noEntry event.focus event.next.symbol)
  | .replace => some (.mismatch event.focus event.next.symbol)
  | .expand _ | .vanish | .accept => none

def error? (event : Event) : Option SyntaxError :=
  event.fault?.map fun fault => ⟨event.next.line, fault⟩

/-- The terminal, if it is used, with what becomes of it. -/
def used? (event : Event) : Option (Fate × Terminal) :=
  event.fate?.map fun fate => (fate, event.next)

end Event

namespace ParseState

/-- These events, one after the other, lead from `s` to `t`. -/
inductive History (g : PreparedGrammar) (s : ParseState) : List Event → ParseState → Prop
  | start : History g s [] s
  | step {events : List Event} {t : ParseState} {path : Path} {focus : Symbol} {next : Terminal}
      {rest : List Terminal} {action : Action} (h : History g s events t)
      (ht : t.tree = .focused path focus) (hi : t.input = next :: rest)
      (ha : Action.Chosen g path focus t.position next.symbol action) :
      History g s (events ++ [⟨t.position, focus, next, action⟩]) (t.apply g path focus next action)

variable {g : PreparedGrammar}

theorem History.of_runs {n : Nat} {s t u : ParseState} {events : List Event}
    (h : History g s events t) (hr : Runs g n t u) : ∃ more, History g s more u := by
  induction hr generalizing events with
  | refl => exact ⟨events, h⟩
  | step hstep _ ih =>
    obtain ⟨path, focus, next, rest, action, htree, hinput, hchosen, rfl⟩ :=
      exists_chosen_of_step? hstep
    exact ih (h.step htree hinput hchosen)

/-- Every run has a history that ends where it ends. -/
theorem exists_history_run (s : ParseState) :
    ∃ events, History g s events (s.run g) ∧ (s.run g).step? g = none := by
  obtain ⟨n, hruns, hfinal⟩ := exists_runs_run (g := g) s
  obtain ⟨events, h⟩ := History.start.of_runs hruns
  exact ⟨events, h, hfinal⟩

/-! ## Complaints and positions -/

theorem errors_apply (s : ParseState) (path : Path) (focus : Symbol) (next : Terminal)
    (action : Action) :
    (s.apply g path focus next action).errors =
      s.errors ++ (Event.error? ⟨s.position, focus, next, action⟩).toList := by
  cases action with
  | expand | vanish | accept => exact (List.append_nil _).symm
  | cut | synch | skip | replace => rfl

theorem position_apply (s : ParseState) (path : Path) (focus : Symbol) (next : Terminal)
    (action : Action) :
    (s.apply g path focus next action).position =
      s.position + (Event.used? ⟨s.position, focus, next, action⟩).toList.length := by
  cases action <;> rfl

theorem input_apply (s : ParseState) (path : Path) (focus : Symbol) (next : Terminal)
    (action : Action) :
    (s.apply g path focus next action).input =
      s.input.drop (Event.used? ⟨s.position, focus, next, action⟩).toList.length := by
  cases action with
  | skip | accept | replace => exact List.drop_one.symm
  | expand | cut | synch | vanish => rfl

theorem filterMap_singleton {α β : Type} (f : α → Option β) (a : α) :
    [a].filterMap f = (f a).toList := by
  cases h : f a <;> simp [h]

theorem History.errors_eq {s t : ParseState} {events : List Event} (h : History g s events t) :
    t.errors = s.errors ++ events.filterMap Event.error? := by
  induction h with
  | start => exact (List.append_nil _).symm
  | step _ _ _ _ ih =>
    rw [errors_apply, ih, List.filterMap_append, filterMap_singleton, List.append_assoc]

/-- The events on the terminals before the end marker. -/
def before (count : Nat) (events : List Event) : List Event :=
  events.filter fun event => event.position < count

theorem History.input_eq {terminals : List Terminal} {t : ParseState} {events : List Event}
    (h : History g (ofTerminals g terminals) events t) :
    t.input = (ofTerminals g terminals).input.drop t.position := by
  induction h with
  | start => rfl
  | step _ _ _ _ ih => rw [input_apply, position_apply, ih, List.drop_drop]

theorem before_concat (count : Nat) (events : List Event) (event : Event) :
    before count (events ++ [event]) =
      before count events ++ if event.position < count then [event] else [] := by
  rw [before, List.filter_append]
  by_cases h : event.position < count
  · simp [h, before]
  · simp [h, before]

theorem History.getElem?_input {terminals rest : List Terminal} {t : ParseState}
    {events : List Event} {next : Terminal} (h : History g (ofTerminals g terminals) events t)
    (hi : t.input = next :: rest) :
    (ofTerminals g terminals).input[t.position]? = some next := by
  rw [← List.head?_drop, ← h.input_eq, hi]
  rfl

/-- Before the end marker, the next terminal is the one at the position. -/
theorem History.getElem?_terminals {terminals rest : List Terminal} {t : ParseState}
    {events : List Event} {next : Terminal} (h : History g (ofTerminals g terminals) events t)
    (hi : t.input = next :: rest) (hp : t.position < terminals.length) :
    terminals[t.position]? = some next := by
  have hnext := h.getElem?_input hi
  rwa [ofTerminals, List.getElem?_append_left hp] at hnext

theorem History.getElem?_of_mem_before {terminals : List Terminal} {t : ParseState}
    {events : List Event} (h : History g (ofTerminals g terminals) events t) {event : Event}
    (hm : event ∈ before terminals.length events) :
    terminals[event.position]? = some event.next := by
  induction h with
  | start => exact absurd hm List.not_mem_nil
  | step hhistory htree hinput hchosen ih =>
    rw [before_concat, List.mem_append] at hm
    rcases hm with hm | hm
    · exact ih hm
    · split at hm
      · rename_i hp
        obtain rfl := List.mem_singleton.1 hm
        exact hhistory.getElem?_terminals hinput hp
      · exact absurd hm List.not_mem_nil

/-- The end marker has no value. -/
theorem History.value_eq_none {terminals rest : List Terminal} {t : ParseState}
    {events : List Event} {next : Terminal} (h : History g (ofTerminals g terminals) events t)
    (hi : t.input = next :: rest) (hp : terminals.length ≤ t.position) : next.value = none := by
  have hnext := h.getElem?_input hi
  rw [ofTerminals, List.getElem?_append_right hp] at hnext
  rw [List.mem_singleton.1 (List.mem_of_getElem? hnext)]

/-- The terminals that were used before the end marker are the first ones, each once. -/
theorem History.used_eq {terminals : List Terminal} {t : ParseState} {events : List Event}
    (h : History g (ofTerminals g terminals) events t) :
    ((before terminals.length events).filterMap Event.used?).map (·.2) =
      terminals.take t.position := by
  induction h with
  | start => rfl
  | @step events t path focus next rest action hhistory htree hinput hchosen ih =>
    rw [before_concat, position_apply]
    by_cases hp : t.position < terminals.length
    · have hnext := hhistory.getElem?_terminals hinput hp
      rw [if_pos hp, List.filterMap_append, List.map_append, ih, filterMap_singleton]
      cases hu : Event.used? ⟨t.position, focus, next, action⟩ with
      | none => simp
      | some used =>
        obtain ⟨fate, -, rfl⟩ := Option.map_eq_some_iff.1 hu
        rw [Option.toList_some, List.length_singleton, List.take_add_one, hnext]
        rfl
    · rw [if_neg hp, List.append_nil, ih, List.take_of_length_le (by omega),
        List.take_of_length_le (by omega)]

end ParseState
end FrontEnd
