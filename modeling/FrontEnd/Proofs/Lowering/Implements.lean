import FrontEnd.Proofs.Lowering.Expr

/-! # Code that carries out programs

A piece of code carries out a program when both come to an end from the same stores, and with stores
that agree. The machine has no other way to its end, so a program that goes on for ever has code
that does.

* `Implements`: both directions. The second one follows any run that comes to an end; it passes
  through the end of the piece.
* `Implements.seq`, `Implements.branch`, `Implements.whileLoop`, `Implements.doWhile`: one lemma for
  each form of program.
-/

namespace FrontEnd
set_option autoImplicit false

/-- The code from line `start` on carries out the program and goes on at line `finish`. -/
structure Implements {V : Type} (M : Interpretation V) (code : Code) (start finish : Nat)
    (p : Program) : Prop where
  forward : ∀ {σ ρ ρ' : Store V}, σ.Agree ρ → Exec M p ρ ρ' →
    ∃ n σ', code.Runs M n ⟨start, σ⟩ ⟨finish, σ'⟩ ∧ σ'.Agree ρ'
  backward : ∀ {n : Nat} {σ ρ : Store V} {last : Machine V}, σ.Agree ρ →
    code.Runs M n ⟨start, σ⟩ last → code.step? M last = none →
    ∃ m σ' ρ', m ≤ n ∧ Exec M p ρ ρ' ∧ σ'.Agree ρ' ∧ code.Runs M m ⟨finish, σ'⟩ last

namespace Implements
variable {V : Type} {M : Interpretation V} {code : Code} {start middle finish : Nat}

theorem skip (line : Nat) : Implements M code line line .skip where
  forward := by
    intro σ ρ ρ' ha h
    cases h
    exact ⟨0, σ, .refl _, ha⟩
  backward := by
    intro n σ ρ last ha hr _
    exact ⟨n, σ, ρ, Nat.le_refl n, .skip ρ, ha, hr⟩

theorem seq {p q : Program} (h : Implements M code start middle p)
    (h' : Implements M code middle finish q) : Implements M code start finish (.seq p q) where
  forward := by
    intro σ ρ ρ' ha he
    cases he with
    | seq he he' =>
      obtain ⟨n, σ', hr, ha'⟩ := h.forward ha he
      obtain ⟨m, σ'', hr', ha''⟩ := h'.forward ha' he'
      exact ⟨n + m, σ'', hr.trans hr', ha''⟩
  backward := by
    intro n σ ρ last ha hr hl
    obtain ⟨m, σ', ρ', hm, he, ha', hr'⟩ := h.backward ha hr hl
    obtain ⟨k, σ'', ρ'', hk, he', ha'', hr''⟩ := h'.backward ha' hr' hl
    exact ⟨k, σ'', ρ'', Nat.le_trans hk hm, .seq he he', ha'', hr''⟩

/-- Code that always reaches its end after a store. -/
theorem store {name : String} {value : Expr}
    (h : ∀ {σ ρ : Store V}, σ.Agree ρ → ∃ n σ', code.Runs M n ⟨start, σ⟩ ⟨finish, σ'⟩ ∧
      σ'.Agree (ρ.set name (value.eval M ρ))) :
    Implements M code start finish (.store name value) where
  forward := by
    intro σ ρ ρ' ha he
    cases he
    exact h ha
  backward := by
    intro n σ ρ last ha hr hl
    obtain ⟨k, σ', hr', ha'⟩ := h ha
    obtain ⟨_, hrest⟩ := hr.of_stopped hl hr'
    exact ⟨n - k, σ', _, Nat.sub_le n k, .store name value ρ, ha', hrest⟩

theorem runs_jump {line target : Nat} (hj : code.get? line = some (.jump (some target)))
    (σ : Store V) : code.Runs M 1 ⟨line, σ⟩ ⟨target, σ⟩ := by
  refine .single ?_
  rw [Code.step?_of_get? hj]
  rfl

/-- A jump at the end leads elsewhere. -/
theorem jump {p : Program} (h : Implements M code start middle p)
    (hj : code.get? middle = some (.jump (some finish))) :
    Implements M code start finish p where
  forward := by
    intro σ ρ ρ' ha he
    obtain ⟨n, σ', hr, ha'⟩ := h.forward ha he
    exact ⟨n + 1, σ', hr.trans (runs_jump hj σ'), ha'⟩
  backward := by
    intro n σ ρ last ha hr hl
    obtain ⟨m, σ', ρ', hm, he, ha', hr'⟩ := h.backward ha hr hl
    obtain ⟨_, hrest⟩ := hr'.of_stopped hl (runs_jump hj σ')
    exact ⟨m - 1, σ', ρ', Nat.le_trans (Nat.sub_le m 1) hm, he, ha', hrest⟩

/-- A jump leads to the code. -/
theorem afterJump {p : Program} (hj : code.get? start = some (.jump (some middle)))
    (h : Implements M code middle finish p) : Implements M code start finish p where
  forward := by
    intro σ ρ ρ' ha he
    obtain ⟨n, σ', hr, ha'⟩ := h.forward ha he
    exact ⟨1 + n, σ', (runs_jump hj σ).trans hr, ha'⟩
  backward := by
    intro n σ ρ last ha hr hl
    obtain ⟨_, hrest⟩ := hr.of_stopped hl (runs_jump hj σ)
    obtain ⟨m, σ', ρ', hm, he, ha', hr'⟩ := h.backward ha hrest hl
    exact ⟨m, σ', ρ', Nat.le_trans hm (Nat.sub_le n 1), he, ha', hr'⟩

theorem branch {condition : Expr} {yes no : Nat} {p q : Program}
    (ht : Tests M code start yes no condition) (hp : Implements M code yes finish p)
    (hq : Implements M code no finish q) :
    Implements M code start finish (.branch condition p q) where
  forward := by
    intro σ ρ ρ' ha he
    obtain ⟨n, τ, hr, ha'⟩ := ht σ ρ ha
    cases he with
    | yes hc he =>
      rw [if_pos hc] at hr
      obtain ⟨m, σ', hr', ha''⟩ := hp.forward ha' he
      exact ⟨n + 1 + m, σ', hr.trans hr', ha''⟩
    | no hc he =>
      rw [if_neg (by simp [hc])] at hr
      obtain ⟨m, σ', hr', ha''⟩ := hq.forward ha' he
      exact ⟨n + 1 + m, σ', hr.trans hr', ha''⟩
  backward := by
    intro n σ ρ last ha hr hl
    obtain ⟨k, τ, hrt, ha'⟩ := ht σ ρ ha
    obtain ⟨_, hrest⟩ := hr.of_stopped hl hrt
    cases hc : M.isTrue (condition.eval M ρ) with
    | true =>
      rw [if_pos hc] at hrest
      obtain ⟨m, σ', ρ', hm, he, ha'', hr'⟩ := hp.backward ha' hrest hl
      exact ⟨m, σ', ρ', Nat.le_trans hm (Nat.sub_le ..), .yes hc he, ha'', hr'⟩
    | false =>
      rw [if_neg (by simp [hc])] at hrest
      obtain ⟨m, σ', ρ', hm, he, ha'', hr'⟩ := hq.backward ha' hrest hl
      exact ⟨m, σ', ρ', Nat.le_trans hm (Nat.sub_le ..), .no hc he, ha'', hr'⟩

/-- The body leads back to the test, and a jump leads out. -/
theorem whileLoop {condition : Expr} {yes no : Nat} {body : Program}
    (ht : Tests M code start yes no condition) (hb : Implements M code yes start body)
    (hn : code.get? no = some (.jump (some finish))) :
    Implements M code start finish (.while condition body) where
  forward := by
    intro σ ρ ρ' ha he
    generalize hw : Program.while condition body = p at he
    induction he generalizing σ with
    | @enter _ _ ρ _ _ hc hbody _ _ ih =>
      obtain ⟨rfl, rfl⟩ := Program.while.inj hw
      obtain ⟨n, τ, hr, ha'⟩ := ht σ ρ ha
      rw [if_pos hc] at hr
      obtain ⟨m, σ', hr', ha''⟩ := hb.forward ha' hbody
      obtain ⟨k, σ'', hr'', ha'''⟩ := ih ha'' rfl
      exact ⟨n + 1 + m + k, σ'', (hr.trans hr').trans hr'', ha'''⟩
    | @leave _ _ ρ hc =>
      obtain ⟨rfl, rfl⟩ := Program.while.inj hw
      obtain ⟨n, τ, hr, ha'⟩ := ht σ ρ ha
      rw [if_neg (by simp [hc])] at hr
      exact ⟨n + 1 + 1, τ, hr.trans (runs_jump hn τ), ha'⟩
    | _ => cases hw
  backward := by
    -- The test takes at least one step, so each round leaves a shorter run.
    intro n
    induction n using Nat.strongRecOn with
    | ind n ih =>
      intro σ ρ last ha hr hl
      obtain ⟨k, τ, hrt, ha'⟩ := ht σ ρ ha
      obtain ⟨hk, hrest⟩ := hr.of_stopped hl hrt
      cases hc : M.isTrue (condition.eval M ρ) with
      | true =>
        rw [if_pos hc] at hrest
        obtain ⟨m, σ', ρ', hm, he, ha'', hr'⟩ := hb.backward ha' hrest hl
        obtain ⟨m', σ'', ρ'', hm', he', ha''', hr''⟩ := ih m (by omega) ha'' hr' hl
        exact ⟨m', σ'', ρ'', by omega, .enter hc he he', ha''', hr''⟩
      | false =>
        rw [if_neg (by simp [hc])] at hrest
        obtain ⟨_, hrest'⟩ := hrest.of_stopped hl (runs_jump hn τ)
        exact ⟨_, τ, ρ, by omega, .leave hc, ha', hrest'⟩

/-- The test leads back to the body. -/
theorem doWhile {condition : Expr} {body : Program} (hb : Implements M code start middle body)
    (ht : Tests M code middle start finish condition) :
    Implements M code start finish (.doWhile body condition) where
  forward := by
    intro σ ρ ρ' ha he
    generalize hw : Program.doWhile body condition = p at he
    induction he generalizing σ with
    | again hbody hc _ _ ih =>
      obtain ⟨rfl, rfl⟩ := Program.doWhile.inj hw
      obtain ⟨n, σ', hr, ha'⟩ := hb.forward ha hbody
      obtain ⟨m, τ, hr', ha''⟩ := ht σ' _ ha'
      rw [if_pos hc] at hr'
      obtain ⟨k, σ'', hr'', ha'''⟩ := ih ha'' rfl
      exact ⟨n + (m + 1) + k, σ'', (hr.trans hr').trans hr'', ha'''⟩
    | once hbody hc _ =>
      obtain ⟨rfl, rfl⟩ := Program.doWhile.inj hw
      obtain ⟨n, σ', hr, ha'⟩ := hb.forward ha hbody
      obtain ⟨m, τ, hr', ha''⟩ := ht σ' _ ha'
      rw [if_neg (by simp [hc])] at hr'
      exact ⟨n + (m + 1), τ, hr.trans hr', ha''⟩
    | _ => cases hw
  backward := by
    intro n
    induction n using Nat.strongRecOn with
    | ind n ih =>
      intro σ ρ last ha hr hl
      obtain ⟨m, σ', ρ', hm, he, ha', hr'⟩ := hb.backward ha hr hl
      obtain ⟨k, τ, hrt, ha''⟩ := ht σ' ρ' ha'
      obtain ⟨hk, hrest⟩ := hr'.of_stopped hl hrt
      cases hc : M.isTrue (condition.eval M ρ') with
      | true =>
        rw [if_pos hc] at hrest
        obtain ⟨m', σ'', ρ'', hm', he', ha''', hr''⟩ := ih _ (by omega) ha'' hrest hl
        exact ⟨m', σ'', ρ'', by omega, .again he hc he', ha''', hr''⟩
      | false =>
        rw [if_neg (by simp [hc])] at hrest
        exact ⟨_, τ, ρ', by omega, .once he hc, ha'', hrest⟩

end Implements
end FrontEnd
