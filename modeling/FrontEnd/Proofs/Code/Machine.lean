import FrontEnd.Proofs.Program.Semantics

/-! # Executing three-address code

The machine stands on a line and has a store. It goes on to the next line, or to the target of a
jump that is taken, and stops where there is no line.

* `Code.get?_emit`, `Code.get?_patch`: what is on a line after an instruction was added or a jump
  got its target.
* `Code.step?`: one instruction. `Code.Runs`: an exact number of them.
* `Code.Runs.of_stopped`: there is only one way to run.
* `Code.Terminates`: runs from the first line past the last one.
-/

namespace FrontEnd
set_option autoImplicit false

namespace Code

/-! ## Lines -/

theorem get?_eq_none {code : Code} {line : Nat} (h : code.nextLine ≤ line) :
    code.get? line = none := by
  unfold nextLine size at h
  have hz : line ≠ 0 := by omega
  rw [get?, if_neg hz, Array.getElem?_eq_none]
  omega

theorem nextLine_emit (code : Code) (instruction : Instruction) :
    (code.emit instruction).nextLine = code.nextLine + 1 := by
  rw [nextLine, nextLine, size, size, emit, Array.size_push]

theorem get?_emit (code : Code) (instruction : Instruction) (line : Nat) :
    (code.emit instruction).get? line =
      if line = code.nextLine then some instruction else code.get? line := by
  unfold get? emit nextLine size
  by_cases hz : line = 0
  · have hne : line ≠ code.instructions.size + 1 := by omega
    rw [if_pos hz, if_neg hne, if_pos hz]
  · rw [if_neg hz, if_neg hz, Array.getElem?_push]
    by_cases he : line = code.instructions.size + 1
    · have hl : line - 1 = code.instructions.size := by omega
      rw [if_pos he, if_pos hl]
    · have hl : line - 1 ≠ code.instructions.size := by omega
      rw [if_neg he, if_neg hl]

theorem nextLine_patch (code : Code) (line target : Nat) :
    (code.patch line target).nextLine = code.nextLine := by
  unfold patch nextLine size
  split
  · rfl
  · rw [Array.size_modify]

theorem get?_zero (code : Code) : code.get? 0 = none := rfl

theorem get?_patch (code : Code) (line target other : Nat) :
    (code.patch line target).get? other =
      if other = line then (code.get? other).map (Instruction.patch target)
      else code.get? other := by
  by_cases ho : other = 0
  · rw [ho, get?_zero, get?_zero, Option.map_none, ite_self]
  unfold patch
  by_cases hl : line = 0
  · have hne : other ≠ line := by omega
    rw [if_pos hl, if_neg hne]
  · rw [if_neg hl, get?, get?, if_neg ho, if_neg ho, Array.getElem?_modify]
    by_cases he : other = line
    · have hi : line - 1 = other - 1 := by omega
      rw [if_pos he, if_pos hi]
    · have hi : line - 1 ≠ other - 1 := by omega
      rw [if_neg he, if_neg hi]

theorem get?_patch_of_ne (code : Code) {line other : Nat} (h : other ≠ line) (target : Nat) :
    (code.patch line target).get? other = code.get? other := by
  rw [get?_patch, if_neg h]

end Code

/-! ## Single instructions -/

namespace Interpretation
variable {V : Type}

/-- The value of an operand. -/
def read (M : Interpretation V) (σ : Store V) (place : String) : V :=
  if isLiteral place then M.literal place else σ place

end Interpretation

structure Machine (V : Type) where
  line : Nat
  store : Store V

namespace Instruction
variable {V : Type}

/-- A jump without a target cannot be taken. -/
def run? (M : Interpretation V) (m : Machine V) : Instruction → Option (Machine V)
  | copy source result => some ⟨m.line + 1, m.store.set result (M.read m.store source)⟩
  | binary op left right result =>
    some ⟨m.line + 1,
      m.store.set result (M.apply op (M.read m.store left) (M.read m.store right))⟩
  | jump target => target.map (⟨·, m.store⟩)
  | jumpIf op left right target =>
    if M.isTrue (M.apply op (M.read m.store left) (M.read m.store right)) then
      target.map (⟨·, m.store⟩)
    else some ⟨m.line + 1, m.store⟩
  | jumpNonZero condition target =>
    if M.isTrue (M.read m.store condition) then target.map (⟨·, m.store⟩)
    else some ⟨m.line + 1, m.store⟩

end Instruction

/-! ## Runs -/

namespace Code
variable {V : Type} {M : Interpretation V} {code : Code}

def step? (M : Interpretation V) (code : Code) (m : Machine V) : Option (Machine V) :=
  (code.get? m.line).bind (Instruction.run? M m)

/-- `n` steps lead from `m` to `k`. -/
inductive Runs (M : Interpretation V) (code : Code) : Nat → Machine V → Machine V → Prop
  | refl (m : Machine V) : Runs M code 0 m m
  | step {n : Nat} {m k l : Machine V} (h : code.step? M m = some k) (hr : Runs M code n k l) :
      Runs M code (n + 1) m l

/-- The whole code runs until it is past its last line. -/
def Terminates (M : Interpretation V) (code : Code) (σ τ : Store V) : Prop :=
  ∃ n, Runs M code n ⟨1, σ⟩ ⟨code.nextLine, τ⟩

theorem step?_of_get? {m : Machine V} {instruction : Instruction}
    (h : code.get? m.line = some instruction) : code.step? M m = instruction.run? M m := by
  rw [step?, h]
  rfl

theorem step?_nextLine (M : Interpretation V) (code : Code) (σ : Store V) :
    code.step? M ⟨code.nextLine, σ⟩ = none := by
  rw [step?, get?_eq_none (Nat.le_refl _)]
  rfl

theorem Runs.single {m k : Machine V} (h : code.step? M m = some k) : Runs M code 1 m k :=
  .step h (.refl k)

theorem Runs.trans {n n' : Nat} {m k l : Machine V} (h : Runs M code n m k)
    (h' : Runs M code n' k l) : Runs M code (n + n') m l := by
  induction h with
  | refl m =>
    rw [Nat.zero_add]
    exact h'
  | step h _ ih =>
    rw [Nat.succ_add]
    exact .step h (ih h')

theorem Runs.eq_of_stopped {n : Nat} {m k : Machine V} (h : Runs M code n m k)
    (hm : code.step? M m = none) : k = m := by
  cases h with
  | refl => rfl
  | step hs _ =>
    rw [hs] at hm
    exact absurd hm (by simp)

/-- A run that has stopped passes through every state that its start leads to. -/
theorem Runs.of_stopped {n n' : Nat} {m k last : Machine V} (h : Runs M code n m last)
    (hlast : code.step? M last = none) (h' : Runs M code n' m k) :
    n' ≤ n ∧ Runs M code (n - n') k last := by
  induction h' generalizing n with
  | refl m => exact ⟨Nat.zero_le n, h⟩
  | @step n' m k l hs hr ih =>
    cases h with
    | refl =>
      rw [hs] at hlast
      exact absurd hlast (by simp)
    | @step n _ k' _ hs' hr' =>
      obtain rfl := Option.some.inj (hs.symm.trans hs')
      obtain ⟨hle, hrun⟩ := ih hr'
      refine ⟨Nat.succ_le_succ hle, ?_⟩
      rwa [Nat.add_sub_add_right]

end Code
end FrontEnd
