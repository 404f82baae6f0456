import Wgs.Foundation.Heap

/-!
Computations that leave a cell alone.

`Relates R o o'` compares two runs of one program: whatever the one gives, the other gives something
related to it.  A program that returns on a memory `m` without a cell at `a` has neither read nor
written nor released a cell there, so on `m` with a cell added (`Mem.Padded`) it does the same and
leaves the cell as it is; the rules follow the steps of the program.
-/

namespace Foundation

variable {α β γ δ : Type*}

/-- Whatever `o` gives, `o'` gives something related to it. -/
def Relates (R : α → β → Prop) (o : Option α) (o' : Option β) : Prop :=
  ∀ r, o = some r → ∃ r', o' = some r' ∧ R r r'

namespace Relates

variable {R : α → β → Prop} {S : γ → δ → Prop} {o u : Option α} {o' u' : Option β}

lemma rfl' (o : Option α) : Relates Eq o o := fun r h => ⟨r, h, rfl⟩

lemma some {r : α} {r' : β} (h : R r r') : Relates R (some r) (some r') := by
  intro x hx
  exact ⟨r', rfl, Option.some_inj.mp hx ▸ h⟩

lemma of_none (o' : Option β) : Relates R none o' := fun _ h => by simp at h

lemma bind {f : α → Option γ} {f' : β → Option δ} (h : Relates R o o')
    (hf : ∀ r r', R r r' → Relates S (f r) (f' r')) : Relates S (o.bind f) (o'.bind f') := by
  intro x hx
  obtain ⟨r, hr, hx⟩ := Option.bind_eq_some_iff.mp hx
  obtain ⟨r', hr', hR⟩ := h r hr
  obtain ⟨x', hx', hS⟩ := hf r r' hR x hx
  exact ⟨x', Option.bind_eq_some_iff.mpr ⟨r', hr', hx'⟩, hS⟩

lemma ite {p : Prop} [Decidable p] (h : Relates R o o') (h' : Relates R u u') :
    Relates R (if p then o else u) (if p then o' else u') := by
  split
  · exact h
  · exact h'

end Relates

namespace Mem

variable {m m' : Mem α} {a : ℕ} {n : α}

/-- `m'` is `m`, which has no cell at `a`, with the cell `n` there. -/
def Padded (a : ℕ) (n : α) (m m' : Mem α) : Prop := m a = none ∧ m' = Function.update m a (some n)

/-- The same value, and the memory with the cell added. -/
def PaddedWith (a : ℕ) (n : α) (r r' : β × Mem α) : Prop := r.1 = r'.1 ∧ Padded a n r.2 r'.2

lemma Padded.read (h : Padded a n m m') (p : Ptr) (f : α → β) :
    Relates Eq (m.read p f) (m'.read p f) := by
  obtain ⟨ha, rfl⟩ := h
  cases p with
  | none => exact .rfl' _
  | some b =>
      rcases eq_or_ne b a with rfl | hb
      · rw [Mem.read, load_some, ha]
        exact .of_none _
      · rw [Mem.read, Mem.read, load_some, load_some, Function.update_of_ne hb]
        exact .rfl' _

lemma Padded.modify (h : Padded a n m m') (p : Ptr) (f : α → α) :
    Relates (Padded a n) (m.modify p f) (m'.modify p f) := by
  obtain ⟨ha, rfl⟩ := h
  cases p with
  | none => exact .of_none _
  | some b =>
      rcases eq_or_ne b a with rfl | hb
      · rw [Mem.modify, ha]
        exact .of_none _
      · cases hm : m b with
        | none =>
            rw [Mem.modify, hm]
            exact .of_none _
        | some k =>
            have hm' : Function.update m a (Option.some n) b = Option.some k := by
              rw [Function.update_of_ne hb, hm]
            rw [modify_eq hm, modify_eq hm']
            refine .some ⟨?_, Function.update_comm hb.symm _ _ _⟩
            rw [Function.update_of_ne hb.symm, ha]

/-- Releasing a cell, and overwriting it instead. -/
lemma relates_free (m : Mem α) (a : ℕ) (n : α) :
    Relates (Padded a n) (m.free (some a)) (m.modify (some a) fun _ => n) := by
  cases hm : m a with
  | none =>
      rw [Mem.free, hm]
      exact .of_none _
  | some k =>
      rw [free_eq hm, modify_eq hm]
      exact .some ⟨Function.update_self _ _ _, (Function.update_idem _ _ _).symm⟩

end Mem

end Foundation
