import Mathlib.Tactic

/-!
Binary heaps in an array that starts at 1: the children of `k` are `2k` and `2k + 1`.

`HeapOn low high f` says that from `low` on every cell up to `high` is at most its parent.
`HoleAt low high f tmp h` is such a heap with a hole at `h`, for the value `tmp`, on its way down:
it moves to the greater child (`HoleAt.descend`) until the value fits (`HoleAt.fill`).
-/

namespace Foundation

variable {α : Type*} [LinearOrder α] {f : ℤ → α} {low high h j k : ℤ} {tmp : α}

/-- Of the cells from `low` to `high`, none is greater than its parent among them. -/
def HeapOn (low high : ℤ) (f : ℤ → α) : Prop := ∀ c, 2 * low ≤ c → c ≤ high → f c ≤ f (c / 2)

namespace HeapOn

/-- A range without children. -/
lemma of_lt (hlow : high < 2 * low) : HeapOn low high f := fun c hc hc' => by omega

/-- The root of a heap is its greatest value. -/
lemma le_root (hf : HeapOn 1 high f) (hk : 1 ≤ k) (hk' : k ≤ high) : f k ≤ f 1 := by
  induction hn : k.toNat using Nat.strong_induction_on generalizing k with
  | _ n ih =>
      rcases eq_or_ne k 1 with rfl | hne
      · exact le_rfl
      · have hparent := ih (k / 2).toNat (by omega) (k := k / 2) (by omega) (by omega) rfl
        exact (hf k (by omega) hk').trans hparent

/-- What is below a cell of a heap is a heap. -/
lemma congr {g : ℤ → α} {low' high' : ℤ} (hf : HeapOn low high f) (hpos : 1 ≤ low')
    (hlow : low ≤ low') (hhigh : high' ≤ high) (hg : ∀ k, low' ≤ k → k ≤ high' → g k = f k) :
    HeapOn low' high' g := by
  intro c hc hc'
  rw [hg (c / 2) (by omega) (by omega), hg c (by omega) hc']
  exact hf c (by omega) (by omega)

end HeapOn

/-- A heap from `low` on with a hole at `h`: what does not touch the hole is ordered, and what is
above the hole is at least `tmp` and what is below the hole. -/
structure HoleAt (low high : ℤ) (f : ℤ → α) (tmp : α) (h : ℤ) : Prop where
  ordered : ∀ c, 2 * low ≤ c → c ≤ high → c ≠ h → c / 2 ≠ h → f c ≤ f (c / 2)
  above : 2 * low ≤ h → tmp ≤ f (h / 2)
  across : 2 * low ≤ h → ∀ c, c / 2 = h → c ≤ high → f c ≤ f (h / 2)

namespace HoleAt

/-- The hole starts at the first cell. -/
lemma start (hlow : 1 ≤ low) (hf : HeapOn (low + 1) high f) (tmp : α) :
    HoleAt low high f tmp low where
  ordered := fun c hc hc' _ hne => hf c (by omega) hc'
  above := fun h => by omega
  across := fun h => by omega

/-- **The hole moves down** to a child `j` that is at least the other one, and greater than
`tmp`. -/
lemma descend (hlow : 1 ≤ low) (hf : HoleAt low high f tmp h) (hlh : low ≤ h) (hjh : j / 2 = h)
    (hj : ∀ c, c / 2 = h → c ≤ high → f c ≤ f j) (hjhigh : j ≤ high) (htmp : tmp < f j) :
    HoleAt low high (Function.update f h (f j)) tmp j where
  ordered := by
    intro c hc hc' hne hne'
    rcases eq_or_ne c h with rfl | hch
    · rw [Function.update_self, Function.update_of_ne (by omega)]
      exact hf.across hc j hjh hjhigh
    · rw [Function.update_of_ne hch]
      rcases eq_or_ne (c / 2) h with hparent | hparent
      · rw [hparent, Function.update_self]
        exact hj c hparent hc'
      · rw [Function.update_of_ne hparent]
        exact hf.ordered c hc hc' hch hparent
  above := by
    intro _
    rw [hjh, Function.update_self]
    exact htmp.le
  across := by
    intro _ c hc hc'
    rw [hjh, Function.update_self, Function.update_of_ne (by omega), ← hc]
    exact hf.ordered c (by omega) hc' (by omega) (by omega)

/-- The value fits into the hole. -/
lemma fill (hlow : 1 ≤ low) (hf : HoleAt low high f tmp h)
    (htmp : ∀ c, c / 2 = h → c ≤ high → f c ≤ tmp) :
    HeapOn low high (Function.update f h tmp) := by
  intro c hc hc'
  rcases eq_or_ne c h with rfl | hch
  · rw [Function.update_self, Function.update_of_ne (by omega)]
    exact hf.above hc
  · rw [Function.update_of_ne hch]
    rcases eq_or_ne (c / 2) h with hparent | hparent
    · rw [hparent, Function.update_self]
      exact htmp c hparent hc'
    · rw [Function.update_of_ne hparent]
      exact hf.ordered c hc hc' hch hparent

end HoleAt

end Foundation
