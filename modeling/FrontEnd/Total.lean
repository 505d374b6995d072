/-! # Totals over lists

`total f items` adds up `f` over the items. Measures of termination and counts of nodes and cells
are totals.
-/

namespace FrontEnd
set_option autoImplicit false

variable {α β : Type}

def total (f : α → Nat) : List α → Nat
  | [] => 0
  | a :: items => f a + total f items

@[simp] theorem total_nil (f : α → Nat) : total f [] = 0 := rfl

@[simp] theorem total_cons (f : α → Nat) (a : α) (items : List α) :
    total f (a :: items) = f a + total f items := rfl

@[simp] theorem total_append (f : α → Nat) (items others : List α) :
    total f (items ++ others) = total f items + total f others := by
  induction items with
  | nil => simp
  | cons a items ih => simp [ih, Nat.add_assoc]

@[simp] theorem total_map (f : β → Nat) (g : α → β) (items : List α) :
    total f (items.map g) = total (fun a => f (g a)) items := by
  induction items with
  | nil => rfl
  | cons a items ih => simp [ih]

theorem le_total_of_mem (f : α → Nat) {a : α} {items : List α} (h : a ∈ items) :
    f a ≤ total f items := by
  induction items with
  | nil => simp at h
  | cons b items ih =>
    rw [total_cons]
    rcases List.mem_cons.1 h with rfl | h
    · omega
    · have := ih h
      omega

theorem total_le_total {f g : α → Nat} {items : List α} (h : ∀ a ∈ items, f a ≤ g a) :
    total f items ≤ total g items := by
  induction items with
  | nil => simp
  | cons a items ih =>
    have := h a (by simp)
    have := ih fun b hb => h b (by simp [hb])
    simp only [total_cons]
    omega

theorem total_lt_total {f g : α → Nat} {items : List α} {a : α} (h : ∀ b ∈ items, f b ≤ g b)
    (ha : a ∈ items) (hlt : f a < g a) : total f items < total g items := by
  obtain ⟨before, after, rfl⟩ := List.append_of_mem ha
  have h1 := total_le_total fun b hb => h b (List.mem_append_left (a :: after) hb)
  have h2 := total_le_total fun b hb =>
    h b (List.mem_append_right before (List.mem_cons_of_mem a hb))
  simp only [total_append, total_cons]
  omega

theorem total_congr {f g : α → Nat} {items : List α} (h : ∀ a ∈ items, f a = g a) :
    total f items = total g items := by
  induction items with
  | nil => rfl
  | cons a items ih => rw [total_cons, total_cons, h a (by simp), ih fun b hb => h b (by simp [hb])]

theorem total_filter_add (f : α → Nat) (p : α → Bool) (items : List α) :
    total f (items.filter p) + total f (items.filter fun a => !p a) = total f items := by
  induction items with
  | nil => rfl
  | cons a items ih => cases h : p a <;> simp [h] <;> omega

theorem total_eraseDups_le [BEq α] [LawfulBEq α] (f : α → Nat) (items : List α) :
    total f items.eraseDups ≤ total f items := by
  match items with
  | [] => simp
  | a :: items =>
    rw [List.eraseDups_cons]
    have := total_eraseDups_le f (items.filter fun b => !b == a)
    have := total_filter_add f (fun b => !b == a) items
    simp only [total_cons]
    omega
termination_by items.length
decreasing_by simpa using Nat.lt_succ_of_le (List.length_filter_le ..)

/-! ## Counts -/

theorem countP_lt_countP {p q : α → Bool} {items : List α} {a : α}
    (hle : ∀ b ∈ items, p b = true → q b = true) (ha : a ∈ items) (hp : p a = false)
    (hq : q a = true) : items.countP p < items.countP q := by
  induction items with
  | nil => simp at ha
  | cons b items ih =>
    have hle' : items.countP p ≤ items.countP q :=
      List.countP_mono_left fun c hc => hle c (by simp [hc])
    rcases List.mem_cons.1 ha with rfl | ha
    · simp only [List.countP_cons, hp, hq, Bool.false_eq_true, if_false, if_true]
      omega
    · have hb := hle b (by simp)
      have := ih (fun c hc => hle c (by simp [hc])) ha
      simp only [List.countP_cons]
      cases hpb : p b
      · simp only [Bool.false_eq_true, if_false]
        omega
      · simp only [hb hpb, if_true]
        omega

end FrontEnd
