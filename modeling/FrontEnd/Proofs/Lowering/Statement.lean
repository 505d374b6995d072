import FrontEnd.Proofs.Lowering.Implements

/-! # Lowered statements carry out their programs

Lowering without complaints makes code that carries out the program of the statements, wherever
this code stands.

* `Assignment.implements_lower`, `Declaration.implements_lower`: stores.
* `StartsGuarded`: a guard and the jump behind it, once both have their targets.
* `Statement.isImplemented`, `Statement.areImplemented`: all statements.
-/

namespace FrontEnd
set_option autoImplicit false

variable {V : Type} {M : Interpretation V} {code : Code}

/-! ## Stores -/

theorem Lowering.implements_store {name : String} {value : Expr} (hv : value.Proper)
    {s : Lowering}
    (hc : code.SameLines (s.store name (some value)).code s.nextLine
      (s.store name (some value)).nextLine) :
    Implements M code s.nextLine (s.store name (some value)).nextLine (.store name value) := by
  refine .store fun {σ ρ} ha => ?_
  have h := (value.adds_lowerValue s).toExtends
  have h' := (value.lowerValue s).2.extends_emit (.copy (value.lowerValue s).1 name)
  have hline : (s.store name (some value)).nextLine = (value.lowerValue s).2.nextLine + 1 :=
    Lowering.nextLine_emit ..
  obtain ⟨n, τ, hr, hk, hread, _⟩ :=
    Expr.computes_lowerValue (M := M) hv (hc.of_extends h' (Nat.le_refl _)) ha
  have hget : code.get? (value.lowerValue s).2.nextLine =
      some (.copy (value.lowerValue s).1 name) := by
    rw [hc _ h.nextLine (Nat.lt_of_lt_of_le (Nat.lt_succ_self _) (Nat.le_of_eq hline.symm))]
    exact Lowering.get?_emit_self ..
  refine ⟨n + 1, τ.set name (value.eval M ρ), ?_, (hk.agree ha).set name _⟩
  rw [hline]
  refine hr.trans (.single ?_)
  rw [Code.step?_of_get? hget, Instruction.run?, hread]

/-- Without complaints an assignment is a store or nothing. -/
theorem Assignment.implements_lower {assignment : Assignment}
    (hp : assignment.program.Proper) {s : Lowering} (he : (assignment.lower s).errors = [])
    (hc : code.SameLines (assignment.lower s).code s.nextLine (assignment.lower s).nextLine) :
    Implements M code s.nextLine (assignment.lower s).nextLine assignment.program := by
  unfold lower at he hc ⊢
  unfold program at hp ⊢
  split at he
  · rename_i hcontains
    rw [if_pos hcontains] at hc ⊢
    split at he
    · exact absurd he (Lowering.errors_addError_ne_nil _ _ _)
    · rename_i value hright
      rw [hright] at hp hc ⊢
      cases value with
      | none => exact .skip _
      | some value => exact Lowering.implements_store hp.2 hc
  · exact absurd he (Lowering.errors_addError_ne_nil _ _ _)

/-- The step of a loop comes after the body. -/
theorem Assignment.implements_lowerStep {step : Option Assignment} {body : Program} {start : Nat}
    {s : Lowering} (hb : Implements M code start s.nextLine body)
    (hp : ((step.map program).toList.foldl .seq body).Proper)
    (he : (lowerStep step s).errors = [])
    (hc : code.SameLines (lowerStep step s).code s.nextLine (lowerStep step s).nextLine) :
    Implements M code start (lowerStep step s).nextLine
      ((step.map program).toList.foldl .seq body) := by
  cases step with
  | none => exact hb
  | some assignment => exact hb.seq (implements_lower hp.2 he hc)

theorem Assignment.proper_body {step : Option Assignment} {body : Program}
    (hp : ((step.map program).toList.foldl .seq body).Proper) : body.Proper := by
  cases step with
  | none => exact hp
  | some assignment => exact hp.1

theorem Declaration.isArray_type (declaration : Declaration) :
    declaration.type.isArray = !declaration.suffixes.isEmpty := by
  unfold type
  cases h : declaration.suffixes <;> rfl

/-- Without complaints a declaration is a store or nothing. -/
theorem Declaration.implements_lower {declaration : Declaration}
    (hp : declaration.program.Proper) {s : Lowering} (he : (declaration.lower s).errors = [])
    (hc : code.SameLines (declaration.lower s).code s.nextLine (declaration.lower s).nextLine) :
    Implements M code s.nextLine (declaration.lower s).nextLine declaration.program := by
  unfold lower at he hc ⊢
  unfold program at hp ⊢
  split at he
  · exact absurd he (Lowering.errors_addError_ne_nil _ _ _)
  · rename_i symbols hinsert
    rw [hinsert] at hc
    dsimp only at he hc ⊢
    have harray := declaration.isArray_type
    split at he
    · rename_i hnone
      rw [hnone] at hp hc ⊢
      cases declaration.suffixes <;> exact .skip _
    · rename_i value hsome
      rw [hsome] at hp hc ⊢
      dsimp only at hc ⊢
      split at he
      · exact absurd he (Lowering.errors_addError_ne_nil _ _ _)
      · rename_i hscalar
        rw [if_neg hscalar] at hc ⊢
        cases hs : declaration.suffixes with
        | cons suffix rest => simp [harray, hs] at hscalar
        | nil =>
          rw [hs] at hp hc
          cases value with
          | none => exact .skip _
          | some value => exact Lowering.implements_store hp.2 hc

theorem StructDefinition.implements_lower (definition : StructDefinition) (s : Lowering) :
    Implements M code s.nextLine (definition.lower s).nextLine .skip := by
  have h : (definition.lower s).nextLine = s.nextLine := by
    unfold lower
    dsimp only
    split <;> rfl
  rw [h]
  exact .skip _

/-! ## Guards -/

theorem Lowering.get?_guarded (t : Lowering) (jump : Instruction) (line : Nat) :
    (t.guarded jump).code.get? line =
      if line = t.nextLine then some (jump.patch (t.nextLine + 2))
      else if line = t.nextLine + 1 then some (.jump none)
      else t.code.get? line := by
  rw [guarded, get?_patch, get?_emit, get?_emit, nextLine_emit]
  by_cases h : line = t.nextLine
  · have hne : line ≠ t.nextLine + 1 := by omega
    rw [if_pos h, if_pos h, if_neg hne, if_pos h]
    rfl
  · rw [if_neg h, if_neg h, if_neg h]

/-- What stands at the front of a piece of code that starts with a guard, once the jump behind the
guard leads to `exit`. -/
def StartsGuarded (code : Code) (s t : Lowering) (jump : Instruction) (exit : Nat) : Prop :=
  ∀ line, s.nextLine ≤ line → line < t.nextLine + 2 →
    code.get? line =
      if line = t.nextLine + 1 then some (.jump (some exit))
      else (t.guarded jump).code.get? line

theorem StartsGuarded.exit {s t : Lowering} {jump : Instruction} {exit : Nat}
    (h : StartsGuarded code s t jump exit) (hs : s.nextLine ≤ t.nextLine) :
    code.get? (t.nextLine + 1) = some (.jump (some exit)) := by
  rw [h _ (Nat.le_succ_of_le hs) (Nat.lt_succ_self _), if_pos rfl]

theorem StartsGuarded.tests {guard : Guard} (hp : guard.condition.Proper) {s t : Lowering}
    {jump : Instruction} (he : guard.lower s = (t.nextLine, t.emit jump)) {exit : Nat}
    (h : StartsGuarded code s t jump exit) (hs : s.nextLine ≤ t.nextLine) :
    Tests M code s.nextLine (t.nextLine + 2) (t.nextLine + 1) guard.condition := by
  refine guard.tests_lower hp he ?_ ?_
  · intro line hfirst hlast
    have hne : line ≠ t.nextLine + 1 := by omega
    have hne' : line ≠ t.nextLine := by omega
    rw [h line hfirst (by omega), if_neg hne, Lowering.get?_guarded, if_neg hne', if_neg hne]
  · have hne : t.nextLine ≠ t.nextLine + 1 := by omega
    rw [h _ hs (by omega), if_neg hne, Lowering.get?_guarded, if_pos rfl]

/-- Patching the jump behind the guard, whatever else was added. -/
theorem Lowering.get?_patch_exit {t b : Lowering} {jump : Instruction}
    (h : (t.guarded jump).Extends b) (exit line : Nat) (hl : line < t.nextLine + 2) :
    (b.patch (t.nextLine + 1) exit).code.get? line =
      if line = t.nextLine + 1 then some (.jump (some exit))
      else (t.guarded jump).code.get? line := by
  have hb := h.get? line (by rw [nextLine_guarded]; exact hl)
  rw [get?_patch]
  by_cases he : line = t.nextLine + 1
  · have hne : line ≠ t.nextLine := by omega
    rw [if_pos he, if_pos he, hb, get?_guarded, if_neg hne, if_pos he]
    rfl
  · rw [if_neg he, if_neg he, hb]

/-! ## Control flow -/

namespace Statement

/-- The code for the statement carries out its program, wherever it stands. -/
def IsImplemented (M : Interpretation V) (code : Code) (statement : Statement) : Prop :=
  ∀ s : Lowering, statement.program.Proper → (statement.lower s).errors = [] →
    code.SameLines (statement.lower s).code s.nextLine (statement.lower s).nextLine →
    Implements M code s.nextLine (statement.lower s).nextLine statement.program

def AreImplemented (M : Interpretation V) (code : Code) (statements : List Statement) : Prop :=
  ∀ s : Lowering, (programs statements).Proper → (lowerList statements s).errors = [] →
    code.SameLines (lowerList statements s).code s.nextLine (lowerList statements s).nextLine →
    Implements M code s.nextLine (lowerList statements s).nextLine (programs statements)

section
variable {body otherwise : List Statement} (ih : AreImplemented M code body)
  (ih' : AreImplemented M code otherwise) (guard : Guard)
include ih

theorem isImplemented_ifThen :
    IsImplemented M code (ifThen guard body) := by
  intro s hp he hc
  obtain ⟨t, jump, ht, hg⟩ := guard.exists_lower_eq s
  rw [program] at hp ⊢
  rw [lower_ifThen hg] at he hc ⊢
  have hb := (adds_lowerList body (t.guarded jump)).toExtends
  have hbody := ih (t.guarded jump) hp.2.1 he
  generalize lowerList body (t.guarded jump) = b at *
  have hstart := t.nextLine_guarded jump
  have hend := b.nextLine_patch (t.nextLine + 1) b.nextLine
  have hle := hb.nextLine
  have hls := ht.nextLine
  rw [hend] at hc ⊢
  have hfront : StartsGuarded code s t jump b.nextLine := by
    intro line hfirst hlast
    rw [hc line hfirst (by omega), Lowering.get?_patch_exit hb _ _ hlast]
  have hsame : code.SameLines b.code (t.guarded jump).nextLine b.nextLine := by
    intro line hfirst hlast
    rw [hc line (by omega) hlast, Lowering.get?_patch, if_neg (by omega)]
  rw [hstart] at hbody hsame
  exact .branch (hfront.tests hp.1 hg hls) (hbody hsame) (.afterJump (hfront.exit hls) (.skip _))

include ih' in
theorem isImplemented_ifElse :
    IsImplemented M code (ifElse guard body otherwise) := by
  intro s hp he hc
  obtain ⟨t, jump, ht, hg⟩ := guard.exists_lower_eq s
  rw [program] at hp ⊢
  rw [lower_ifElse hg] at he hc ⊢
  have hb := (adds_lowerList body (t.guarded jump)).toExtends
  have ho := (adds_lowerList otherwise (afterFirst t jump body)).toExtends
  have hbody := ih (t.guarded jump) hp.2.1 (ho.errors_eq_nil he)
  have hother := ih' (afterFirst t jump body) hp.2.2 he
  generalize lowerList otherwise (afterFirst t jump body) = o at *
  unfold afterFirst at ho hother
  generalize lowerList body (t.guarded jump) = b at *
  have hstart := t.nextLine_guarded jump
  have hmiddle : ((b.emit (.jump none)).patch (t.nextLine + 1) (b.nextLine + 1)).nextLine =
      b.nextLine + 1 := by
    rw [Lowering.nextLine_patch, Lowering.nextLine_emit]
  have hend := o.nextLine_patch b.nextLine o.nextLine
  have hls := ht.nextLine
  have hlb := hb.nextLine
  have hlo := ho.nextLine
  rw [hend] at hc ⊢
  have hfront : StartsGuarded code s t jump (b.nextLine + 1) := by
    intro line hfirst hlast
    rw [hc line hfirst (by omega), Lowering.get?_patch, if_neg (by omega),
      ho.get? line (by omega),
      Lowering.get?_patch_exit (hb.trans (b.extends_emit _)) _ _ hlast]
  have hsame : code.SameLines b.code (t.guarded jump).nextLine b.nextLine := by
    intro line hfirst hlast
    rw [hc line (by omega) (by omega), Lowering.get?_patch, if_neg (by omega),
      ho.get? line (by omega), Lowering.get?_patch, if_neg (by omega),
      (b.extends_emit _).get? line hlast]
  have hleave : code.get? b.nextLine = some (.jump (some o.nextLine)) := by
    rw [hc _ (by omega) (by omega), Lowering.get?_patch, if_pos rfl, ho.get? _ (by omega),
      Lowering.get?_patch, if_neg (by omega), Lowering.get?_emit_self]
    rfl
  have hsame' : code.SameLines o.code (b.nextLine + 1) o.nextLine := by
    intro line hfirst hlast
    rw [hc line (by omega) hlast, Lowering.get?_patch, if_neg (by omega)]
  rw [hstart] at hbody hsame
  rw [hmiddle] at hother
  exact .branch (hfront.tests hp.1 hg hls) ((hbody hsame).jump hleave)
    (.afterJump (hfront.exit hls) (hother hsame'))

theorem isImplemented_loop (step : Option Assignment) :
    IsImplemented M code (loop guard body step) := by
  intro s hp he hc
  obtain ⟨t, jump, ht, hg⟩ := guard.exists_lower_eq s
  rw [program] at hp ⊢
  rw [lower_loop hg] at he hc ⊢
  have hb := (adds_lowerList body (t.guarded jump)).toExtends
  have hr := (Assignment.adds_lowerStep step (lowerList body (t.guarded jump))).toExtends
  have hbody := ih (t.guarded jump) (Assignment.proper_body hp.2)
    (hr.errors_eq_nil he)
  generalize lowerList body (t.guarded jump) = b at *
  have hround : ∀ start, Implements M code start b.nextLine (programs body) →
      code.SameLines (Assignment.lowerStep step b).code b.nextLine
        (Assignment.lowerStep step b).nextLine →
      Implements M code start (Assignment.lowerStep step b).nextLine
        ((step.map Assignment.program).toList.foldl .seq (programs body)) :=
    fun start h => Assignment.implements_lowerStep h hp.2 he
  generalize Assignment.lowerStep step b = r at *
  have hstart := t.nextLine_guarded jump
  have hend : ((r.emit (.jump (some s.nextLine))).patch (t.nextLine + 1)
      (r.nextLine + 1)).nextLine = r.nextLine + 1 := by
    rw [Lowering.nextLine_patch, Lowering.nextLine_emit]
  have hls := ht.nextLine
  have hlb := hb.nextLine
  have hlr := hr.nextLine
  rw [hend] at hc ⊢
  have hfront : StartsGuarded code s t jump (r.nextLine + 1) := by
    intro line hfirst hlast
    rw [hc line hfirst (by omega),
      Lowering.get?_patch_exit ((hb.trans hr).trans (r.extends_emit _)) _ _ hlast]
  have hsame : code.SameLines r.code (t.guarded jump).nextLine r.nextLine := by
    intro line hfirst hlast
    rw [hc line (by omega) (by omega), Lowering.get?_patch, if_neg (by omega),
      (r.extends_emit _).get? line hlast]
  have hback : code.get? r.nextLine = some (.jump (some s.nextLine)) := by
    rw [hc _ (by omega) (by omega), Lowering.get?_patch, if_neg (by omega),
      Lowering.get?_emit_self]
  have hsame' := hsame.of_extends hr (Nat.le_refl _)
  rw [hstart] at hbody hsame'
  have hbody' := hround _ (hbody hsame') (hsame.mono hlb (Nat.le_refl _))
  exact .whileLoop (hfront.tests hp.1 hg hls) (hbody'.jump hback) (hfront.exit hls)

theorem isImplemented_doWhile :
    IsImplemented M code (doWhile body (some guard)) := by
  intro s hp he hc
  obtain ⟨t, jump, ht, hg⟩ := guard.exists_lower_eq (lowerList body s)
  rw [program] at hp ⊢
  rw [lower_doWhile hg] at he hc ⊢
  have hb := (adds_lowerList body s).toExtends
  have hbody := ih s hp.1 (ht.errors_eq_nil he)
  generalize lowerList body s = b at *
  have hend : ((t.emit jump).patch t.nextLine s.nextLine).nextLine = t.nextLine + 1 := by
    rw [Lowering.nextLine_patch, Lowering.nextLine_emit]
  have hlb := hb.nextLine
  have hlt := ht.nextLine
  rw [hend] at hc ⊢
  have hsame : code.SameLines t.code s.nextLine t.nextLine := by
    intro line hfirst hlast
    rw [hc line hfirst (by omega), Lowering.get?_patch, if_neg (by omega),
      (t.extends_emit _).get? line hlast]
  have hjump : code.get? t.nextLine = some (jump.patch s.nextLine) := by
    rw [hc _ (by omega) (by omega), Lowering.get?_patch, if_pos rfl, Lowering.get?_emit_self]
    rfl
  exact .doWhile (hbody (hsame.of_extends ht.toExtends (Nat.le_refl _)))
    (guard.tests_lower hp.2 hg (hsame.mono hlb (Nat.le_refl _)) hjump)

end

mutual

theorem isImplemented : ∀ statement : Statement, IsImplemented M code statement
  | .declare declaration => by
    intro s hp he hc
    rw [lower] at he hc ⊢
    rw [program] at hp ⊢
    exact declaration.implements_lower hp he hc
  | .assign assignment => by
    intro s hp he hc
    rw [lower] at he hc ⊢
    rw [program] at hp ⊢
    exact assignment.implements_lower hp he hc
  | .define definition => by
    intro s _ _ _
    rw [lower, program]
    exact definition.implements_lower s
  | .ifThen guard body => isImplemented_ifThen (areImplemented body) guard
  | .ifElse guard body otherwise =>
    isImplemented_ifElse (areImplemented body) (areImplemented otherwise) guard
  | .loop guard body step => isImplemented_loop (areImplemented body) guard step
  | .doWhile body none => by
    intro s hp he hc
    rw [lower] at he hc ⊢
    rw [program] at hp ⊢
    exact areImplemented body s hp he hc
  | .doWhile body (some guard) => isImplemented_doWhile (areImplemented body) guard

theorem areImplemented : ∀ statements : List Statement, AreImplemented M code statements
  | [] => by
    intro s _ _ _
    rw [lowerList, programs]
    exact .skip _
  | statement :: rest => by
    intro s hp he hc
    rw [lowerList] at he hc ⊢
    rw [programs] at hp ⊢
    have h := (adds_lower statement s).toExtends
    have h' := (adds_lowerList rest (statement.lower s)).toExtends
    have hfirst := isImplemented statement s hp.1 (h'.errors_eq_nil he)
      (hc.of_extends h' (Nat.le_refl _))
    have hrest := areImplemented rest (statement.lower s) hp.2 he
      (hc.mono h.nextLine (Nat.le_refl _))
    exact hfirst.seq hrest

end

end Statement
end FrontEnd
