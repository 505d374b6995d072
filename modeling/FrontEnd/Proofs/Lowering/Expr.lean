import FrontEnd.Proofs.Lowering.Growth

/-! # Code for expressions computes their values

* `Code.SameLines`: another code has the same instructions on some lines.
* `Store.Keeps`: nothing but new temporaries has changed.
* `Computes`: a piece of code leaves the value of an expression in a place that later code for
  expressions does not touch.
* `Expr.computes_lower`, `Expr.computes_lowerValue`: the code for an expression does.
* `Guard.tests_lower`: the code for a guard goes one of two ways.
-/

namespace FrontEnd
set_option autoImplicit false

/-! ## Pieces of code -/

namespace Code

/-- On the lines from `first` up to but not including `last` the codes are equal. -/
def SameLines (code other : Code) (first last : Nat) : Prop :=
  ∀ line, first ≤ line → line < last → code.get? line = other.get? line

/-- A piece stays the same when the state goes on. -/
theorem SameLines.of_extends {code : Code} {s t : Lowering} {first last : Nat}
    (h : code.SameLines t.code first t.nextLine) (hs : s.Extends t) (hl : last ≤ s.nextLine) :
    code.SameLines s.code first last := by
  intro line hfirst hlast
  have hlt := Nat.lt_of_lt_of_le hlast hl
  rw [h line hfirst (Nat.lt_of_lt_of_le hlt hs.nextLine), hs.get? line hlt]

theorem SameLines.mono {code other : Code} {first last first' last' : Nat}
    (h : code.SameLines other first last) (hf : first ≤ first') (hl : last' ≤ last) :
    code.SameLines other first' last' :=
  fun line h1 h2 => h line (Nat.le_trans hf h1) (Nat.lt_of_lt_of_le h2 hl)

end Code

/-! ## What stays -/

namespace Store
variable {V : Type} {σ τ υ : Store V}

/-- The stores differ at most in temporaries from number `first` on. -/
def Keeps (first : Nat) (σ τ : Store V) : Prop :=
  ∀ name, (∀ k, first ≤ k → name ≠ Lowering.temporary k) → τ name = σ name

theorem Keeps.refl (first : Nat) (σ : Store V) : Keeps first σ σ := fun _ _ => rfl

theorem Keeps.trans {first later : Nat} (h : Keeps first σ τ) (h' : Keeps later τ υ)
    (hl : first ≤ later) : Keeps first σ υ := by
  intro name hn
  rw [h' name fun k hk => hn k (Nat.le_trans hl hk), h name hn]

theorem Keeps.set_temporary {first number : Nat} (h : Keeps first σ τ) (hn : first ≤ number)
    (value : V) : Keeps first σ (τ.set (Lowering.temporary number) value) := by
  intro name hname
  rw [set_of_ne τ (hname number hn), h name hname]

theorem Keeps.agree {first : Nat} {ρ : Store V} (h : Keeps first σ τ) (ha : σ.Agree ρ) :
    τ.Agree ρ := by
  intro name hname
  rw [h name, ha name hname]
  rintro k - rfl
  rw [isTemporaryName_temporary] at hname
  exact absurd hname (by simp)

end Store

theorem Interpretation.read_congr {V : Type} (M : Interpretation V) {σ τ : Store V}
    {place : String} (h : σ place = τ place) : M.read σ place = M.read τ place := by
  rw [read, read, h]

theorem Interpretation.read_literal {V : Type} (M : Interpretation V) (σ : Store V)
    {text : String} (h : isLiteral text = true) : M.read σ text = M.literal text :=
  if_pos h

theorem Interpretation.read_name {V : Type} (M : Interpretation V) (σ : Store V)
    {text : String} (h : isLiteral text = false) : M.read σ text = σ text := by
  rw [read, h]
  exact if_neg (by simp)

/-- The code between the lines of two states leaves `value` in `place`. No temporary that comes
later is this place. -/
def Computes {V : Type} (M : Interpretation V) (code : Code) (s t : Lowering) (σ : Store V)
    (place : String) (value : V) : Prop :=
  ∃ n τ, code.Runs M n ⟨s.nextLine, σ⟩ ⟨t.nextLine, τ⟩ ∧ Store.Keeps s.nextTemporary σ τ ∧
    M.read τ place = value ∧ ∀ k, t.nextTemporary ≤ k → place ≠ Lowering.temporary k

section
variable {V : Type} {M : Interpretation V} {code : Code}

/-- A result that goes into the next temporary. -/
theorem computes_emitFresh {s t : Lowering} {σ τ : Store V} {n : Nat} {value : V}
    (instruction : String → Instruction)
    (hr : code.Runs M n ⟨s.nextLine, σ⟩ ⟨t.nextLine, τ⟩)
    (hk : Store.Keeps s.nextTemporary σ τ) (ht : s.nextTemporary ≤ t.nextTemporary)
    (hget : code.get? t.nextLine = some (instruction (Lowering.temporary t.nextTemporary)))
    (hrun : (instruction (Lowering.temporary t.nextTemporary)).run? M ⟨t.nextLine, τ⟩ =
      some ⟨t.nextLine + 1, τ.set (Lowering.temporary t.nextTemporary) value⟩) :
    Computes M code s (t.emitFresh instruction).2 σ (Lowering.temporary t.nextTemporary) value := by
  refine ⟨n + 1, τ.set (Lowering.temporary t.nextTemporary) value, ?_, hk.set_temporary ht value,
    ?_, ?_⟩
  · have hline : (t.emitFresh instruction).2.nextLine = t.nextLine + 1 := t.nextLine_emit _
    rw [hline]
    exact hr.trans (.single ((Code.step?_of_get? hget).trans hrun))
  · rw [M.read_name _ (isLiteral_temporary _), Store.set_self]
  · intro k hk' he
    have hnext : (t.emitFresh instruction).2.nextTemporary = t.nextTemporary + 1 := rfl
    have := temporary_inj he
    omega

/-- Names and literals stand for themselves. -/
theorem computes_self (s : Lowering) {σ : Store V} {place : String} {value : V}
    (hv : M.read σ place = value) (hp : isTemporaryName place = false) :
    Computes M code s s σ place value := by
  refine ⟨0, σ, .refl _, .refl _ _, hv, ?_⟩
  rintro k - rfl
  rw [isTemporaryName_temporary] at hp
  exact absurd hp (by simp)

/-- The place of the first operand keeps its value while the second one is computed. -/
theorem Computes.pair {s t u : Lowering} {σ : Store V} {left right : String} {a b : V}
    (h : Computes M code s t σ left a)
    (h' : ∀ τ, Store.Keeps s.nextTemporary σ τ → Computes M code t u τ right b)
    (ht : s.nextTemporary ≤ t.nextTemporary) :
    ∃ n τ, code.Runs M n ⟨s.nextLine, σ⟩ ⟨u.nextLine, τ⟩ ∧ Store.Keeps s.nextTemporary σ τ ∧
      M.read τ left = a ∧ M.read τ right = b := by
  obtain ⟨n, τ, hrun, hkeep, hread, hplace⟩ := h
  obtain ⟨m, υ, hrun', hkeep', hread', _⟩ := h' τ hkeep
  refine ⟨n + m, υ, hrun.trans hrun', hkeep.trans hkeep' ht, ?_, hread'⟩
  rw [← hread]
  exact M.read_congr (hkeep' left hplace)

namespace Expr

theorem computes_lower {e : Expr} (he : e.Proper) {s : Lowering}
    (hc : code.SameLines (e.lower s).2.code s.nextLine (e.lower s).2.nextLine) {σ ρ : Store V}
    (ha : σ.Agree ρ) :
    Computes M code s (e.lower s).2 σ (e.lower s).1.place (e.eval M ρ) := by
  induction e generalizing s σ with
  | int text =>
    exact computes_self s (M.read_literal σ he) (isTemporaryName_of_isLiteral he)
  | float text =>
    exact computes_self s (M.read_literal σ he) (isTemporaryName_of_isLiteral he)
  | name line text =>
    have hself : Computes M code s s σ text (ρ text) :=
      computes_self s ((M.read_name σ he.1).trans (ha text he.2)) he.2
    rw [lower]
    split
    · exact hself
    · exact hself
  | binary op line left right ihl ihr =>
    rw [lower] at hc ⊢
    dsimp only at hc ⊢
    have h1 := (left.adds_lower s).toExtends
    have h2 := (right.adds_lower (left.lower s).2).toExtends
    have h3 := (right.lower (left.lower s).2).2.extends_checkTypes line (left.lower s).1
      (right.lower (left.lower s).2).1
    have h4 := Lowering.extends_emitFresh ((right.lower (left.lower s).2).2.checkTypes line
      (left.lower s).1 (right.lower (left.lower s).2).1) (Instruction.binary op
      (left.lower s).1.place (right.lower (left.lower s).2).1.place)
    have hleft := hc.of_extends ((h2.trans h3).trans h4) (Nat.le_refl _)
    have hright := (hc.of_extends (h3.trans h4) (Nat.le_refl _)).mono h1.nextLine (Nat.le_refl _)
    obtain ⟨n, τ, hrun, hkeep, hread, hread'⟩ := Computes.pair (M := M) (ihl he.1 hleft ha)
      (fun τ hk => ihr he.2 hright (hk.agree ha)) h1.nextTemporary
    rw [← (right.lower (left.lower s).2).2.nextLine_checkTypes line (left.lower s).1
      (right.lower (left.lower s).2).1] at hrun
    refine computes_emitFresh _ hrun hkeep ((h1.trans h2).trans h3).nextTemporary ?_ ?_
    · rw [hc _ ((h1.trans h2).trans h3).nextLine (Lowering.nextLine_lt_emitFresh ..)]
      exact Lowering.get?_emit_self _ _
    · rw [Instruction.run?, hread, hread', eval]

theorem computes_lowerValue {e : Expr} (he : e.Proper) {s : Lowering}
    (hc : code.SameLines (e.lowerValue s).2.code s.nextLine (e.lowerValue s).2.nextLine)
    {σ ρ : Store V} (ha : σ.Agree ρ) :
    Computes M code s (e.lowerValue s).2 σ (e.lowerValue s).1 (e.eval M ρ) := by
  unfold lowerValue at hc ⊢
  dsimp only at hc ⊢
  split at hc
  · rename_i hcomputed
    rw [if_pos hcomputed]
    exact computes_lower he hc ha
  · rename_i hcomputed
    rw [if_neg hcomputed]
    have h := (e.adds_lower s).toExtends
    have h' := (e.lower s).2.extends_emitFresh (Instruction.copy (e.lower s).1.place)
    obtain ⟨n, τ, hrun, hkeep, hread, hplace⟩ :=
      computes_lower (M := M) he (hc.of_extends h' (Nat.le_refl _)) ha
    refine computes_emitFresh _ hrun hkeep h.nextTemporary ?_ ?_
    · rw [hc _ h.nextLine (Lowering.nextLine_lt_emitFresh ..)]
      exact (e.lower s).2.get?_emit_self _
    · rw [Instruction.run?, hread]

end Expr

/-- What was lost is zero. -/
theorem computes_lowerOperand {e : Option Expr} (he : (e.getD (.int "0")).Proper) {s : Lowering}
    (hc : code.SameLines (lowerOperand e s).2.code s.nextLine (lowerOperand e s).2.nextLine)
    {σ ρ : Store V} (ha : σ.Agree ρ) :
    Computes M code s (lowerOperand e s).2 σ (placeOrZero (lowerOperand e s).1)
      ((e.getD (.int "0")).eval M ρ) := by
  cases e with
  | none => exact computes_self s (M.read_literal σ he) (isTemporaryName_of_isLiteral he)
  | some e => exact Expr.computes_lower he hc ha

/-! ## Guards -/

/-- From line `start` the machine comes to one of two lines, as the condition says. -/
def Tests {V : Type} (M : Interpretation V) (code : Code) (start yes no : Nat)
    (condition : Expr) : Prop :=
  ∀ σ ρ : Store V, σ.Agree ρ → ∃ n τ,
    code.Runs M (n + 1) ⟨start, σ⟩
      ⟨if M.isTrue (condition.eval M ρ) then yes else no, τ⟩ ∧ τ.Agree ρ

theorem Lowering.eq_of_emit_eq {s t : Lowering} {i j : Instruction} (h : s.emit i = t.emit j) :
    s = t ∧ i = j := by
  obtain ⟨symbols, code, errors, next⟩ := s
  obtain ⟨symbols', code', errors', next'⟩ := t
  obtain ⟨instructions⟩ := code
  obtain ⟨instructions'⟩ := code'
  simp only [emit, Code.emit, mk.injEq, Code.mk.injEq, Array.push_eq_push] at h
  obtain ⟨rfl, ⟨rfl, rfl⟩, rfl, rfl⟩ := h
  exact ⟨rfl, rfl⟩

namespace Guard

theorem tests_lower {guard : Guard} (hp : guard.condition.Proper) {s t : Lowering}
    {jump : Instruction} (he : guard.lower s = (t.nextLine, t.emit jump)) {target : Nat}
    (hc : code.SameLines t.code s.nextLine t.nextLine)
    (hj : code.get? t.nextLine = some (jump.patch target)) :
    Tests M code s.nextLine target (t.nextLine + 1) guard.condition := by
  intro σ ρ ha
  cases guard with
  | compare op line left right =>
    rw [lower_compare] at he
    obtain ⟨rfl, rfl⟩ := Lowering.eq_of_emit_eq (congrArg Prod.snd he)
    have h1 := (adds_lowerOperand left s).toExtends
    have h2 := (adds_lowerOperand right (lowerOperand left s).2).toExtends
    have h3 := (lowerOperand right (lowerOperand left s).2).2.extends_compared line
      (lowerOperand left s).1 (lowerOperand right (lowerOperand left s).2).1
    have hleft := hc.of_extends (h2.trans h3) (Nat.le_refl _)
    have hright := (hc.of_extends h3 (Nat.le_refl _)).mono h1.nextLine (Nat.le_refl _)
    obtain ⟨n, τ, hrun, hkeep, hread, hread'⟩ := Computes.pair (M := M)
      (computes_lowerOperand hp.1 hleft ha)
      (fun τ hk => computes_lowerOperand hp.2 hright (hk.agree ha)) h1.nextTemporary
    refine ⟨n, τ, ?_, hkeep.agree ha⟩
    rw [← (lowerOperand right (lowerOperand left s).2).2.nextLine_compared line
      (lowerOperand left s).1 (lowerOperand right (lowerOperand left s).2).1] at hrun
    refine hrun.trans (.single ((Code.step?_of_get? hj).trans ?_))
    rw [Instruction.patch, Instruction.run?, hread, hread', condition, Expr.eval]
    split
    · rfl
    · rfl
  | truth value =>
    have hvalue : ∃ place n τ, jump = .jumpNonZero place none ∧
        code.Runs M n ⟨s.nextLine, σ⟩ ⟨t.nextLine, τ⟩ ∧ τ.Agree ρ ∧
        M.read τ place = (value.getD (.int "0")).eval M ρ := by
      cases value with
      | none =>
        obtain ⟨rfl, rfl⟩ := Lowering.eq_of_emit_eq (congrArg Prod.snd he)
        exact ⟨"0", 0, σ, rfl, .refl _, ha, M.read_literal σ hp⟩
      | some value =>
        obtain ⟨rfl, rfl⟩ := Lowering.eq_of_emit_eq (congrArg Prod.snd he)
        obtain ⟨n, τ, hrun, hkeep, hread, _⟩ := Expr.computes_lowerValue (M := M) hp hc ha
        exact ⟨_, n, τ, rfl, hrun, hkeep.agree ha, hread⟩
    obtain ⟨place, n, τ, rfl, hrun, hagree, hread⟩ := hvalue
    refine ⟨n, τ, hrun.trans (.single ((Code.step?_of_get? hj).trans ?_)), hagree⟩
    rw [Instruction.patch, Instruction.run?, hread, condition]
    split
    · rfl
    · rfl

end Guard
end
end FrontEnd
