import FrontEnd.Parse.Step
import FrontEnd.Proofs.Program.Semantics

/-! # How a sequence of tokens is to be read

The operators bind as in C: `*`, `/` and `%` before `+` and `-`, these before the relations, then
`&&`, and `||` last. Operands are joined from left to right; two relations do not follow each other.

* `Level`, `Expr.Reads`: expressions at each level of precedence.
* `Program.ReadsVariable`: declarations and assignments.
* `Program.Reads`: programs. A `for` statement is its initializer and a loop whose step comes after
  the body.
* `Program.Reads.every`: the literals and names of a program are values of its terminals.
-/

namespace FrontEnd
set_option autoImplicit false

/-! ## Expressions -/

/-- Levels of precedence, those that bind least first. -/
inductive Level where
  | disjunction | conjunction | relation | sum | term | factor
deriving DecidableEq, Repr

namespace Level

def tighter : Level → Level
  | disjunction => conjunction
  | conjunction => relation
  | relation => sum
  | sum => term
  | term | factor => factor

/-- The operators that join any number of operands, with their texts. -/
def operators : Level → List (Symbol × String)
  | disjunction => [("OR", "||")]
  | conjunction => [("AND", "&&")]
  | sum => [("PLUS", "+"), ("MINUS", "-")]
  | term => [("STAR", "*"), ("DIV", "/"), ("MOD", "%")]
  | relation | factor => []

end Level

inductive Expr.Reads : Level → List Terminal → Expr → Prop
  | int (text : String) (line : Nat) : Reads .factor [⟨"INT", some text, line⟩] (.int text)
  | float (text : String) (line : Nat) : Reads .factor [⟨"FLOAT", some text, line⟩] (.float text)
  | name (text : String) (line : Nat) : Reads .factor [⟨"ID", some text, line⟩] (.name line text)
  | parens {left right : Terminal} {ts : List Terminal} {e : Expr} (hl : left.symbol = "LP")
      (hr : right.symbol = "RP") (h : Reads .disjunction ts e) :
      Reads .factor (left :: (ts ++ [right])) e
  | operand {level : Level} {ts : List Terminal} {e : Expr} (h : Reads level.tighter ts e) :
      Reads level ts e
  | join {level : Level} {as bs : List Terminal} {a b : Expr} {t : Terminal} {op : String}
      (ha : Reads level as a) (ho : (t.symbol, op) ∈ level.operators)
      (hb : Reads level.tighter bs b) : Reads level (as ++ t :: bs) (.binary op t.line a b)
  | compare {as bs : List Terminal} {a b : Expr} {t : Terminal} {op : String}
      (ha : Reads .sum as a) (ht : t.symbol = "RELOP") (hv : t.value = some op)
      (hb : Reads .sum bs b) : Reads .relation (as ++ t :: bs) (.binary op t.line a b)

/-! ## Statements -/

def Spells (names : List Symbol) (ts : List Terminal) : Prop := ts.map (·.symbol) = names

theorem Spells.append {names others : List Symbol} {ts us : List Terminal} (h : Spells names ts)
    (h' : Spells others us) : Spells (names ++ others) (ts ++ us) := by
  rw [Spells, List.map_append, h, h']

/-- The members of a struct. -/
inductive Members : List Terminal → Prop
  | nil : Members []
  | cons {head rest : List Terminal} (h : Spells ["TYPE", "ID", "SEMI"] head)
      (hr : Members rest) : Members (head ++ rest)

/-- What may stand before a name. -/
inductive TypePart : List Terminal → Prop
  | none : TypePart []
  | some {ts : List Terminal} (h : Spells ["TYPE"] ts) : TypePart ts

namespace Program

/-- What stands behind a name: brackets, of which it is told only whether there are any, and
perhaps a value. -/
inductive ReadsInit : List Terminal → Bool → Option Expr → Prop
  | none : ReadsInit [] false none
  | assign {ts : List Terminal} {assign : Terminal} {e : Expr} (ha : assign.symbol = "ASSIGNOP")
      (he : Expr.Reads .disjunction ts e) : ReadsInit (assign :: ts) false (some e)
  | brackets {head ts : List Terminal} {indexed : Bool} {value : Option Expr}
      (hh : Spells ["LB", "INT", "RB"] head) (h : ReadsInit ts indexed value) :
      ReadsInit (head ++ ts) true value

/-- Only a value for a scalar is stored. Values for names with brackets can be written as well; such
programs are always refused. -/
def stored (name : String) : Bool → Option Expr → Program
  | false, some value => .store name value
  | _, _ => .skip

/-- A name, declared or assigned to. -/
inductive ReadsVariable : List Terminal → Program → Prop
  | named {type ts : List Terminal} {name : String} {line : Nat} {indexed : Bool}
      {value : Option Expr} (ht : TypePart type) (h : ReadsInit ts indexed value) :
      ReadsVariable (type ++ ⟨"ID", some name, line⟩ :: ts) (stored name indexed value)

/-- The initializer of a `for` statement. -/
inductive ReadsStart : List Terminal → List Program → Prop
  | none : ReadsStart [] []
  | some {ts : List Terminal} {p : Program} (h : ReadsVariable ts p) : ReadsStart ts [p]

/-- The step of a `for` statement. -/
inductive ReadsStep : List Terminal → List Program → Prop
  | none : ReadsStep [] []
  | some {ts : List Terminal} {assign : Terminal} {name : String} {line : Nat} {e : Expr}
      (ha : assign.symbol = "ASSIGNOP") (he : Expr.Reads .disjunction ts e) :
      ReadsStep (⟨"ID", some name, line⟩ :: assign :: ts) [.store name e]

inductive Reads : List Terminal → Program → Prop
  | nil : Reads [] .skip
  | named {ts semi rest : List Terminal} {p q : Program} (hp : ReadsVariable ts p)
      (hs : Spells ["SEMI"] semi) (hq : Reads rest q) :
      Reads (ts ++ (semi ++ rest)) (.seq p q)
  | struct {head members tail rest : List Terminal} {q : Program}
      (hh : Spells ["STRUCT", "ID", "LC"] head) (hm : Members members)
      (ht : Spells ["RC", "SEMI"] tail) (hq : Reads rest q) :
      Reads (head ++ (members ++ (tail ++ rest))) (.seq .skip q)
  | ifThen {head test mid body tail rest : List Terminal} {c : Expr} {p q : Program}
      (hh : Spells ["IF", "LP"] head) (hc : Expr.Reads .disjunction test c)
      (hm : Spells ["RP", "LC"] mid) (hp : Reads body p) (ht : Spells ["RC"] tail)
      (hq : Reads rest q) :
      Reads (head ++ (test ++ (mid ++ (body ++ (tail ++ rest))))) (.seq (.branch c p .skip) q)
  | ifElse {head test mid body tail other last rest : List Terminal} {c : Expr} {p r q : Program}
      (hh : Spells ["IF", "LP"] head) (hc : Expr.Reads .disjunction test c)
      (hm : Spells ["RP", "LC"] mid) (hp : Reads body p) (ht : Spells ["RC", "ELSE", "LC"] tail)
      (hr : Reads other r) (hl : Spells ["RC"] last) (hq : Reads rest q) :
      Reads (head ++ (test ++ (mid ++ (body ++ (tail ++ (other ++ (last ++ rest)))))))
        (.seq (.branch c p r) q)
  | whileLoop {head test mid body tail rest : List Terminal} {c : Expr} {p q : Program}
      (hh : Spells ["WHILE", "LP"] head) (hc : Expr.Reads .disjunction test c)
      (hm : Spells ["RP", "LC"] mid) (hp : Reads body p) (ht : Spells ["RC"] tail)
      (hq : Reads rest q) :
      Reads (head ++ (test ++ (mid ++ (body ++ (tail ++ rest))))) (.seq (.while c p) q)
  | doWhile {head body mid test tail rest : List Terminal} {c : Expr} {p q : Program}
      (hh : Spells ["DO", "LC"] head) (hp : Reads body p)
      (hm : Spells ["RC", "WHILE", "LP"] mid) (hc : Expr.Reads .disjunction test c)
      (ht : Spells ["RP", "SEMI"] tail) (hq : Reads rest q) :
      Reads (head ++ (body ++ (mid ++ (test ++ (tail ++ rest))))) (.seq (.doWhile p c) q)
  | forLoop {head start semi test semi' step mid body tail rest : List Terminal}
      {first next : List Program} {c : Expr} {p q : Program} (hh : Spells ["FOR", "LP"] head)
      (hf : ReadsStart start first) (hs : Spells ["SEMI"] semi)
      (hc : Expr.Reads .disjunction test c) (hs' : Spells ["SEMI"] semi')
      (hn : ReadsStep step next) (hm : Spells ["RP", "LC"] mid) (hp : Reads body p)
      (ht : Spells ["RC"] tail) (hq : Reads rest q) :
      Reads (head ++ (start ++ (semi ++ (test ++ (semi' ++ (step ++ (mid ++ (body ++
        (tail ++ rest))))))))) (first.foldr .seq (.seq (.while c (next.foldl .seq p)) q))

end Program

/-! ## Names and literals -/

/-- The terminal carries what its category promises: a literal, a name or some text. -/
structure Terminal.IsLexical (t : Terminal) : Prop where
  literal : t.symbol = "INT" ∨ t.symbol = "FLOAT" →
    ∃ text, t.value = some text ∧ isLiteral text = true
  name : t.symbol = "ID" → ∃ text, t.value = some text ∧ IsName text
  text : t.symbol = "TYPE" ∨ t.symbol = "RELOP" → ∃ text, t.value = some text

/-! ### What is read comes from the terminals -/

/-- The value of the terminal, if it has one, has the property. -/
def Terminal.Satisfies (P : Symbol → String → Prop) (t : Terminal) : Prop :=
  ∀ text, t.value = some text → P t.symbol text

section
variable {P : Symbol → String → Prop}

theorem Expr.Reads.every {level : Level} {ts : List Terminal} {e : Expr}
    (h : Expr.Reads level ts e) (hl : ∀ t ∈ ts, t.Satisfies P) : e.Every P := by
  induction h with
  | int text line => exact hl ⟨"INT", some text, line⟩ (by simp) text rfl
  | float text line => exact hl ⟨"FLOAT", some text, line⟩ (by simp) text rfl
  | name text line => exact hl ⟨"ID", some text, line⟩ (by simp) text rfl
  | parens _ _ _ ih => exact ih fun t ht => hl t (by simp [ht])
  | operand _ ih => exact ih hl
  | join _ _ _ iha ihb =>
    exact ⟨iha fun t ht => hl t (by simp [ht]), ihb fun t ht => hl t (by simp [ht])⟩
  | compare _ _ _ _ iha ihb =>
    exact ⟨iha fun t ht => hl t (by simp [ht]), ihb fun t ht => hl t (by simp [ht])⟩

namespace Program

theorem ReadsInit.every {ts : List Terminal} {indexed : Bool} {value : Option Expr}
    (h : ReadsInit ts indexed value) (hl : ∀ t ∈ ts, t.Satisfies P) :
    ∀ e ∈ value, e.Every P := by
  induction h with
  | none => simp
  | assign _ he =>
    intro e hm
    obtain rfl := Option.some.inj hm
    exact he.every fun t ht => hl t (by simp [ht])
  | brackets _ _ ih => exact ih fun t ht => hl t (by simp [ht])

theorem ReadsVariable.every {ts : List Terminal} {p : Program} (h : ReadsVariable ts p)
    (hl : ∀ t ∈ ts, t.Satisfies P) : p.Every P := by
  cases h with
  | @named _ _ name line indexed value _ hi =>
    have hvalue := hi.every fun t ht => hl t (by simp [ht])
    have hname : P "ID" name := hl ⟨"ID", some name, line⟩ (by simp) name rfl
    cases indexed <;> cases value
    · trivial
    · exact ⟨hname, hvalue _ rfl⟩
    · trivial
    · trivial

theorem ReadsStart.every {ts : List Terminal} {ps : List Program} (h : ReadsStart ts ps)
    (hl : ∀ t ∈ ts, t.Satisfies P) : ∀ p ∈ ps, p.Every P := by
  cases h with
  | none => simp
  | some hp =>
    intro p hm
    obtain rfl := List.mem_singleton.1 hm
    exact hp.every hl

theorem ReadsStep.every {ts : List Terminal} {ps : List Program} (h : ReadsStep ts ps)
    (hl : ∀ t ∈ ts, t.Satisfies P) : ∀ p ∈ ps, p.Every P := by
  cases h with
  | none => simp
  | some ha he =>
    intro p hm
    obtain rfl := List.mem_singleton.1 hm
    exact ReadsVariable.every (.named .none (.assign ha he)) hl

theorem every_foldr_seq {ps : List Program} {q : Program} (hp : ∀ p ∈ ps, p.Every P)
    (hq : q.Every P) : (ps.foldr .seq q).Every P := by
  induction ps with
  | nil => exact hq
  | cons p ps ih => exact ⟨hp p (by simp), ih fun p hm => hp p (by simp [hm])⟩

theorem every_foldl_seq {ps : List Program} {q : Program} (hp : ∀ p ∈ ps, p.Every P)
    (hq : q.Every P) : (ps.foldl .seq q).Every P := by
  induction ps generalizing q with
  | nil => exact hq
  | cons p ps ih => exact ih (fun p hm => hp p (by simp [hm])) ⟨hq, hp p (by simp)⟩

/-- Whatever holds of the values of all terminals holds of the literals and names of the program. -/
theorem Reads.every {ts : List Terminal} {p : Program} (h : Reads ts p)
    (hl : ∀ t ∈ ts, t.Satisfies P) : p.Every P := by
  induction h with
  | nil => trivial
  | named hp _ _ ih =>
    exact ⟨hp.every fun t ht => hl t (by simp [ht]), ih fun t ht => hl t (by simp [ht])⟩
  | struct _ _ _ _ ih => exact ⟨trivial, ih fun t ht => hl t (by simp [ht])⟩
  | ifThen _ hc _ _ _ _ ihp ihq =>
    exact ⟨⟨hc.every fun t ht => hl t (by simp [ht]), ihp fun t ht => hl t (by simp [ht]),
      trivial⟩, ihq fun t ht => hl t (by simp [ht])⟩
  | ifElse _ hc _ _ _ _ _ _ ihp ihr ihq =>
    exact ⟨⟨hc.every fun t ht => hl t (by simp [ht]), ihp fun t ht => hl t (by simp [ht]),
      ihr fun t ht => hl t (by simp [ht])⟩, ihq fun t ht => hl t (by simp [ht])⟩
  | whileLoop _ hc _ _ _ _ ihp ihq =>
    exact ⟨⟨hc.every fun t ht => hl t (by simp [ht]), ihp fun t ht => hl t (by simp [ht])⟩,
      ihq fun t ht => hl t (by simp [ht])⟩
  | doWhile _ _ _ hc _ _ ihp ihq =>
    exact ⟨⟨ihp fun t ht => hl t (by simp [ht]), hc.every fun t ht => hl t (by simp [ht])⟩,
      ihq fun t ht => hl t (by simp [ht])⟩
  | forLoop _ hf _ hc _ hn _ _ _ _ ihp ihq =>
    have hbody := every_foldl_seq (hn.every fun t ht => hl t (by simp [ht]))
      (ihp fun t ht => hl t (by simp [ht]))
    exact every_foldr_seq (hf.every fun t ht => hl t (by simp [ht]))
      ⟨⟨hc.every fun t ht => hl t (by simp [ht]), hbody⟩, ihq fun t ht => hl t (by simp [ht])⟩

end Program

end

/-! ### Proper terminals -/

/-- What is asked of the values of literals and names. -/
def IsProperValue (symbol : Symbol) (text : String) : Prop :=
  (symbol = "INT" ∨ symbol = "FLOAT" → isLiteral text = true) ∧ (symbol = "ID" → IsName text)

theorem Terminal.IsLexical.satisfies {t : Terminal} (h : t.IsLexical) :
    t.Satisfies IsProperValue := by
  intro text ht
  refine ⟨fun hs => ?_, fun hs => ?_⟩
  · obtain ⟨text', hv, hl⟩ := h.literal hs
    obtain rfl := Option.some.inj (ht.symm.trans hv)
    exact hl
  · obtain ⟨text', hv, hn⟩ := h.name hs
    obtain rfl := Option.some.inj (ht.symm.trans hv)
    exact hn

theorem Expr.proper_of_every {e : Expr} (h : e.Every IsProperValue) : e.Proper := by
  induction e with
  | int text => exact h.1 (.inl rfl)
  | float text => exact h.1 (.inr rfl)
  | name line text => exact h.2 rfl
  | binary op line left right ihl ihr => exact ⟨ihl h.1, ihr h.2⟩

namespace Program

theorem proper_of_every {p : Program} (h : p.Every IsProperValue) : p.Proper := by
  induction p with
  | skip => trivial
  | store name value => exact ⟨h.1.2 rfl, Expr.proper_of_every h.2⟩
  | seq first second ih ih' => exact ⟨ih h.1, ih' h.2⟩
  | branch condition yes no ih ih' =>
    exact ⟨Expr.proper_of_every h.1, ih h.2.1, ih' h.2.2⟩
  | «while» condition body ih => exact ⟨Expr.proper_of_every h.1, ih h.2⟩
  | doWhile body condition ih => exact ⟨ih h.1, Expr.proper_of_every h.2⟩

theorem Reads.proper {ts : List Terminal} {p : Program} (h : Reads ts p)
    (hl : ∀ t ∈ ts, t.IsLexical) : p.Proper :=
  proper_of_every (h.every fun t ht => (hl t ht).satisfies)

end Program
end FrontEnd
