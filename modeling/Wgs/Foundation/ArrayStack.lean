import Mathlib.Tactic

/-!
An array and a cursor read as a stack.

`Upto cells top L` says that the cells up to the cursor `top` are the list `L`, the topmost first;
what is behind the cursor is free.
-/

namespace Foundation

variable {α : Type*} {cells cells' : ℤ → α} {top : ℤ} {L : List α} {x : α}

/-- The cells from `top` down to `0` are the list `L`. -/
def Upto (cells : ℤ → α) : ℤ → List α → Prop
  | top, [] => top = -1
  | top, x :: L => cells top = x ∧ Upto cells (top - 1) L

@[simp] lemma upto_nil : Upto cells top [] ↔ top = -1 := Iff.rfl

@[simp] lemma upto_cons :
    Upto cells top (x :: L) ↔ cells top = x ∧ Upto cells (top - 1) L := Iff.rfl

/-- The cursor is the number of the cells, less one. -/
lemma Upto.top_eq (h : Upto cells top L) : top = L.length - 1 := by
  induction L generalizing top with
  | nil => simpa using h
  | cons x L ih =>
      have hrest := ih h.2
      rw [List.length_cons]
      push_cast
      omega

/-- What is behind the cursor does not matter. -/
lemma Upto.congr (h : Upto cells top L) (hagree : ∀ i ≤ top, cells' i = cells i) :
    Upto cells' top L := by
  induction L generalizing top with
  | nil => exact h
  | cons x L ih =>
      exact ⟨(hagree top le_rfl).trans h.1, ih h.2 fun i hi => hagree i (by omega)⟩

/-- The cursor moves on to a new cell. -/
lemma Upto.push (h : Upto cells top L) (x : α) :
    Upto (Function.update cells (top + 1) x) (top + 1) (x :: L) := by
  refine ⟨Function.update_self _ _ _, ?_⟩
  rw [add_sub_cancel_right]
  exact h.congr fun i hi => Function.update_of_ne (by omega) _ _

/-- The cursor at `-1` is the empty stack. -/
lemma Upto.top_eq_neg_one_iff (h : Upto cells top L) : top = -1 ↔ L = [] := by
  have htop := h.top_eq
  cases L with
  | nil => simpa using h
  | cons x L =>
      rw [List.length_cons] at htop
      push_cast at htop
      simp
      omega

end Foundation
