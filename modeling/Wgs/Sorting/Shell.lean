import Wgs.Foundation.Cells
import Wgs.Foundation.MachineInt

/-!
Shell sort: `shsort` of `C/xierpaixu.c`, `Shsort` of `C/huawei/paixu.c` and `sort` of
`C/pinduoduo/p1.c`, which are the same routine.

The innermost loop shifts values past a hole, a gap at a time, and keeps the value that belongs
into it in `s[0]`; the filled array stays a rearrangement (`Shifting`).  A pass leaves the cells at
the distance of the gap in order, and the last gap is 1.

All indices stay between `-n` and `n`, except for the counter of a pass, which leaves the loop at
`n + 1`: when `n` is the largest `int`, there is no such value, and the pass goes on in front of the
array.  For every other `n` the array gets sorted (`shsort_sorts_iff`).
-/

namespace Wgs.Sorting

open Foundation

/-! ### The program -/

/-- `while ((j > 0) && (s[0] < s[j])) { s[j + d] = s[j]; j = j - d; }` -/
def shiftLoop (d : ℤ) : ℕ → Cells ℤ × ℤ → Option (Cells ℤ × ℤ) :=
  whileLoop
    (fun (s, j) => do if 0 < j then return (← s.load 0) < (← s.load j) else return false)
    (fun _ (s, j) => return (← s.store (j + d) (← s.load j), j - d))

/-- The body of the `for` loop. -/
def gapInsert (fuel : ℕ) (s : Cells ℤ) (d i : ℤ) : Option (Cells ℤ) := do
  let s ← s.store 0 (← s.load i)
  let (s, j) ← shiftLoop d fuel (s, i - d)
  s.store (j + d) (← s.load 0)

/-- `for (i = d + 1; i <= n; i++)`, from some `i` on. -/
def gapPass (n d : ℤ) : ℕ → Cells ℤ × ℤ → Option (Cells ℤ × ℤ) :=
  whileLoop
    (fun (_, i) => return i ≤ n)
    (fun fuel (s, i) => return (← gapInsert fuel s d i, toInt32 (i + 1)))

/-- `while (d >= 1)`, from some `d` on. -/
def gapLoop (n : ℤ) : ℕ → Cells ℤ × ℤ → Option (Cells ℤ × ℤ) :=
  whileLoop
    (fun (_, d) => return 1 ≤ d)
    (fun fuel (s, d) => do
      let (s, _) ← gapPass n d fuel (s, d + 1)
      return (s, d.tdiv 2))

/-- `shsort` of `C/xierpaixu.c`. -/
def shsort (fuel : ℕ) (s : Cells ℤ) (n : ℤ) : Option (Cells ℤ) := do
  let (s, _) ← gapLoop n fuel (s, n.tdiv 2)
  return s

/-- `Shsort` of `C/huawei/paixu.c`. -/
def Paixu.shsort : ℕ → Cells ℤ → ℤ → Option (Cells ℤ) := Sorting.shsort

/-- `sort` of `C/pinduoduo/p1.c`. -/
def Pinduoduo.sort : ℕ → Cells ℤ → ℤ → Option (Cells ℤ) := Sorting.shsort

/-! ### Order at a distance -/

/-- Of the cells from 1 to `m`, those at the distance `d` are in order. -/
def GapOrdered (d m : ℤ) (f : ℤ → ℤ) : Prop := ∀ k, 1 ≤ k → k + d ≤ m → f k ≤ f (k + d)

/-- Cells at the distance 1 in order are in order. -/
lemma GapOrdered.ascends {n : ℤ} {f : ℤ → ℤ} (h : GapOrdered 1 n f) : AscendsOn f 1 n := by
  intro i j hi hij hj
  obtain ⟨k, rfl⟩ := Int.le.dest hij
  induction k with
  | zero => simp
  | succ k ih =>
      have hnext := h (i + k) (by omega) (by push_cast at hj; omega)
      have hprev := ih (by omega) (by push_cast at hj; omega)
      calc f i
          ≤ f (i + k) := hprev
        _ ≤ f (i + k + 1) := hnext
        _ = f (i + (k + 1 : ℕ)) := by rw [Nat.cast_succ, add_assoc]

/-! ### One insertion -/

/-- The array while the value of the cell `i` is inserted, with a hole at `h`: the cells up to `i`
are ordered but for the hole, across which they are ordered, too, and what follows it is greater. -/
structure Shifting (s₀ : Cells ℤ) (d i : ℤ) (s : Cells ℤ) (h : ℤ) : Prop where
  length_eq : s.length = s₀.length
  one_le : 1 ≤ h
  le : h ≤ i
  pivot : s.cell 0 = s₀.cell i
  rearranges : Rearranges (Set.Icc 1 i) (Function.update s₀.cell 0 (s₀.cell i))
    (Function.update s.cell h (s₀.cell i))
  ordered : ∀ k, 1 ≤ k → k + d ≤ i → k ≠ h → k + d ≠ h → s.cell k ≤ s.cell (k + d)
  across : 1 ≤ h - d → h + d ≤ i → s.cell (h - d) ≤ s.cell (h + d)
  above : h + d ≤ i → s₀.cell i ≤ s.cell (h + d)

section Insertion

variable {s₀ s s' : Cells ℤ} {d h i n : ℤ}

/-- The value goes to `s[0]`, and leaves the first hole. -/
lemma Shifting.start (hd : 1 ≤ d) (hdi : d + 1 ≤ i) (hord : GapOrdered d (i - 1) s.cell)
    (hlen : s'.length = s.length) (hs' : s'.cell = Function.update s.cell 0 (s.cell i)) :
    Shifting s d i s' i where
  length_eq := hlen
  one_le := by omega
  le := le_rfl
  pivot := by rw [hs', Function.update_self]
  rearranges := by
    rw [hs', Function.update_eq_self_iff.mpr (Function.update_of_ne (by omega) _ _).symm]
    exact .refl _ _
  ordered := by
    intro k hk hki _ hne
    rw [hs', Function.update_of_ne (by omega), Function.update_of_ne (by omega)]
    exact hord k hk (by omega)
  across := fun _ _ => by omega
  above := fun _ => by omega

/-- One shift: the hole moves down by the gap. -/
lemma Shifting.shift (hd : 1 ≤ d) (hs : Shifting s₀ d i s h) (hpos : 1 ≤ h - d)
    (hcell : s₀.cell i < s.cell (h - d)) (hlen : s'.length = s.length)
    (hs' : s'.cell = Function.update s.cell h (s.cell (h - d))) :
    Shifting s₀ d i s' (h - d) where
  length_eq := hlen.trans hs.length_eq
  one_le := hpos
  le := by
    have hle := hs.le
    omega
  pivot := by
    have hle := hs.one_le
    rw [hs', Function.update_of_ne (by omega)]
    exact hs.pivot
  rearranges := by
    have hle := hs.le
    rw [hs']
    exact hs.rearranges.move_hole ⟨hs.one_le, hle⟩ ⟨hpos, by omega⟩ (by omega)
  ordered := by
    intro k hk hki hne hne'
    rcases eq_or_ne k h with rfl | hkh
    · rw [hs', Function.update_self, Function.update_of_ne (by omega)]
      exact hs.across hpos hki
    · rw [hs', Function.update_of_ne hkh, Function.update_of_ne (by omega)]
      exact hs.ordered k hk hki hkh (by omega)
  across := by
    intro hpos' _
    have hord := hs.ordered (h - d - d) hpos' (by have := hs.le; omega) (by omega) (by omega)
    rw [sub_add_cancel] at hord
    rw [sub_add_cancel, hs', Function.update_self, Function.update_of_ne (by omega)]
    exact hord
  above := by
    intro _
    rw [sub_add_cancel, hs', Function.update_self]
    exact hcell.le

/-- The value is put into the hole. -/
lemma Shifting.ordered_fill (hd : 1 ≤ d) (hs : Shifting s₀ d i s h)
    (hcell : 1 ≤ h - d → s.cell (h - d) ≤ s₀.cell i) :
    GapOrdered d i (Function.update s.cell h (s₀.cell i)) := by
  intro k hk hki
  rcases eq_or_ne k h with rfl | hkh
  · rw [Function.update_self, Function.update_of_ne (by omega)]
    exact hs.above hki
  · rw [Function.update_of_ne hkh]
    rcases eq_or_ne (k + d) h with rfl | hkh'
    · rw [Function.update_self]
      rw [add_sub_cancel_right] at hcell
      exact hcell hk
    · rw [Function.update_of_ne hkh']
      exact hs.ordered k hk hki hkh hkh'

/-- The hole stops where the value belongs. -/
lemma shiftLoop_ends (hd : 1 ≤ d) (hi : i < s₀.length) (hs : Shifting s₀ d i s h) :
    Ends (fun fuel => shiftLoop d fuel (s, h - d)) fun r => Shifting s₀ d i r.1 (r.2 + d)
      ∧ (1 ≤ r.2 → r.1.cell r.2 ≤ s₀.cell i) := by
  have hstart : Shifting s₀ d i s (h - d + d) := by rwa [sub_add_cancel]
  refine Ends.whileLoop (I := fun r => Shifting s₀ d i r.1 (r.2 + d)) (fun r => r.2.toNat)
    (fun r hr => ?_) hstart
  obtain ⟨s, j⟩ := r
  dsimp only at hr ⊢
  have hlen := hr.length_eq
  have hle := hr.le
  by_cases hj : 0 < j
  · have h₀ : s.load 0 = some (s₀.cell i) := hr.pivot ▸ Cells.load_eq le_rfl (by omega)
    have hload := Cells.load_eq (s := s) hj.le (by omega)
    by_cases hcmp : s₀.cell i < s.cell j
    · refine Or.inl ⟨by simp [hj, h₀, hload, hcmp], ?_⟩
      refine Ends.load hj.le (by omega) (Ends.store (by omega) (by omega) fun s' hlen' hs' => ?_)
      refine .of_eq (fun _ => rfl) ⟨?_, ?_⟩ <;> dsimp only
      · have hshift := hr.shift hd (by omega) (by rwa [add_sub_cancel_right]) hlen'
          (by rwa [add_sub_cancel_right])
        rw [add_sub_cancel_right] at hshift
        rwa [sub_add_cancel]
      · omega
    · exact Or.inr ⟨by simp [hj, h₀, hload, hcmp], hr, fun _ => not_lt.mp hcmp⟩
  · exact Or.inr ⟨by simp [hj], hr, fun h => absurd h (by omega)⟩

/-- One more cell is inserted among those at the distance of the gap. -/
lemma gapInsert_ends (hd : 1 ≤ d) (hdi : d + 1 ≤ i) (hi : i < s.length)
    (hord : GapOrdered d (i - 1) s.cell) :
    Ends (fun fuel => gapInsert fuel s d i) fun t => t.length = s.length
      ∧ RearrangesPast 0 (Set.Icc 1 i) s.cell t.cell ∧ GapOrdered d i t.cell := by
  simp only [gapInsert]
  refine Ends.load (by omega) hi (Ends.store le_rfl (by omega) fun t hlen ht => ?_)
  refine (shiftLoop_ends hd hi (.start hd hdi hord hlen ht)).bind fun ⟨u, j⟩ ⟨hu, hcell⟩ => ?_
  dsimp only at hu hcell ⊢
  have hlen' := hu.length_eq
  have hle := hu.one_le
  have hle' := hu.le
  refine Ends.load le_rfl (by omega) ?_
  obtain ⟨w, hw, hlen'', hcell'⟩ := Cells.store_spec (s := u) (i := j + d) (by omega) (by omega)
    (u.cell 0)
  rw [hu.pivot] at hcell'
  refine .of_eq (fun _ => hw) ⟨hlen''.trans hlen', ⟨_, hcell' ▸ hu.rearranges⟩, ?_⟩
  rw [hcell']
  exact hu.ordered_fill hd (by rwa [add_sub_cancel_right])

/-! ### The passes -/

/-- A pass orders the cells at the distance of the gap, if its counter does not overflow. -/
lemma gapPass_ends (hd : 1 ≤ d) (hdn : d ≤ n) (hn : n < s.length) (hmax : n < 2147483647) :
    Ends (fun fuel => gapPass n d fuel (s, d + 1)) fun r => r.1.length = s.length
      ∧ RearrangesPast 0 (Set.Icc 1 n) s.cell r.1.cell ∧ GapOrdered d n r.1.cell := by
  refine Ends.whileLoop
    (I := fun r => r.1.length = s.length ∧ d + 1 ≤ r.2 ∧ r.2 ≤ n + 1
      ∧ RearrangesPast 0 (Set.Icc 1 n) s.cell r.1.cell ∧ GapOrdered d (r.2 - 1) r.1.cell)
    (fun r => (n + 1 - r.2).toNat) (fun r hr => ?_)
    ⟨rfl, le_rfl, by dsimp only; omega, .refl _ _ _, ?_⟩
  · obtain ⟨t, i⟩ := r
    obtain ⟨hlen, hdi, hin, hrearr, hord⟩ := hr
    dsimp only at *
    by_cases hi : i ≤ n
    · refine Or.inl ⟨by simp [hi], ?_⟩
      refine (gapInsert_ends hd hdi (by omega) hord).bind fun u ⟨hlen', hrearr', hord'⟩ => ?_
      have hnext : toInt32 (i + 1) = i + 1 := toInt32_of_isInt32 ⟨by omega, by omega⟩
      have hmono := hrearr'.mono (Set.Icc_subset_Icc (le_refl 1) hi)
      have hrearr'' := hrearr.trans (by simp) hmono
      refine .of_eq (fun _ => rfl) ⟨⟨hlen'.trans hlen, ?_, ?_, hrearr'', ?_⟩, ?_⟩
        <;> dsimp only <;> rw [hnext]
      · omega
      · omega
      · rwa [add_sub_cancel_right]
      · omega
    · refine Or.inr ⟨by simp [hi], hlen, hrearr, ?_⟩
      rwa [show i - 1 = n by omega] at hord
  · intro k hk hkd
    dsimp only at hkd
    omega

/-- The passes end with the gap 1, which orders the array. -/
lemma gapLoop_ends (hn₀ : 0 ≤ n) (hn : n < s.length) (hmax : n < 2147483647) :
    Ends (fun fuel => gapLoop n fuel (s, n.tdiv 2)) fun r => r.1.length = s.length
      ∧ RearrangesPast 0 (Set.Icc 1 n) s.cell r.1.cell ∧ AscendsOn r.1.cell 1 n := by
  refine Ends.whileLoop
    (I := fun r => r.1.length = s.length ∧ 0 ≤ r.2 ∧ r.2 ≤ n
      ∧ RearrangesPast 0 (Set.Icc 1 n) s.cell r.1.cell ∧ (r.2 = 0 → AscendsOn r.1.cell 1 n))
    (fun r => r.2.toNat) (fun r hr => ?_) ⟨rfl, ?_, ?_, .refl _ _ _, ?_⟩
  · obtain ⟨t, d⟩ := r
    obtain ⟨hlen, hd₀, hdn, hrearr, hasc⟩ := hr
    dsimp only at *
    by_cases hd : 1 ≤ d
    · refine Or.inl ⟨by simp [hd], ?_⟩
      refine (gapPass_ends hd hdn (by omega) hmax).bind fun ⟨u, i⟩ ⟨hlen', hrearr', hord⟩ => ?_
      have hhalf : d.tdiv 2 = d / 2 := Int.tdiv_eq_ediv_of_nonneg hd₀
      have hrearr'' := hrearr.trans (by simp) hrearr'
      refine .of_eq (fun _ => rfl) ⟨⟨hlen'.trans hlen, ?_, ?_, hrearr'', ?_⟩, ?_⟩
        <;> dsimp only at * <;> rw [hhalf]
      · omega
      · omega
      · intro hzero
        obtain rfl : d = 1 := by omega
        exact hord.ascends
      · omega
    · exact Or.inr ⟨by simp [hd], hlen, hrearr, hasc (by omega)⟩
  · exact Int.tdiv_nonneg hn₀ zero_le_two
  · dsimp only
    rw [Int.tdiv_eq_ediv_of_nonneg hn₀]
    omega
  · intro hzero
    dsimp only at hzero
    rw [Int.tdiv_eq_ediv_of_nonneg hn₀] at hzero
    exact GapOrdered.ascends fun k hk hkn => by omega

/-- With the largest `int` there is, no pass comes to an end. -/
lemma gapPass_max {i : ℤ} (hi : i ≤ 2147483647) (fuel : ℕ) :
    gapPass 2147483647 d fuel (s, i) = none :=
  whileLoop_counter_eq_none (fun _ _ => rfl) (fun _ _ _ => rfl)
    (fun _ => (isInt32_toInt32 _).2) hi fuel

lemma gapLoop_max (hd : 1 ≤ d) (hd' : d < 2147483647) (fuel : ℕ) :
    gapLoop 2147483647 fuel (s, d) = none := by
  refine whileLoop_eq_none_of_body (I := fun r => 1 ≤ r.2 ∧ r.2 < 2147483647) (fun r hr => ?_)
    (fun fuel r hr => ?_) ⟨hd, hd'⟩ fuel
  · simpa using hr.1
  · simp [gapPass_max (by have := hr.2; omega : r.2 + 1 ≤ 2147483647)]

lemma shsort_max (fuel : ℕ) : shsort fuel s 2147483647 = none := by
  rw [shsort, gapLoop_max (by decide) (by decide)]
  rfl

/-- The last gap leaves the array in order, as a rearrangement. -/
lemma shsort_rearranges (hn₀ : 0 ≤ n) (hn : n < s.length) (hmax : n < 2147483647) :
    Ends (fun fuel => shsort fuel s n) fun t => t.length = s.length
      ∧ RearrangesPast 0 (Set.Icc 1 n) s.cell t.cell ∧ AscendsOn t.cell 1 n :=
  (gapLoop_ends hn₀ hn hmax).bind fun _ h => .of_eq (fun _ => rfl) h

lemma shsort_ends (hn₀ : 0 ≤ n) (hn : n < s.length) (hmax : n < 2147483647) :
    Ends (fun fuel => shsort fuel s n) (SortedIn {0} 1 n s) :=
  (shsort_rearranges hn₀ hn hmax).mono fun _ ⟨hlen, hrearr, hasc⟩ =>
    .of_rearrangesPast zero_le_one hn (by simp) hlen hrearr hasc

/-- **Shell sort**: all three routines return, with `s[1..n]` in ascending order and, apart from
`s[0]`, nothing else changed, exactly when `n` is not the largest `int`. -/
theorem shsort_sorts_iff (hn₀ : 0 ≤ n) (hint : IsInt32 n) (hn : n < s.length) :
    (∃ t, Returns (fun fuel => shsort fuel s n) t ∧ Returns (fun fuel => Paixu.shsort fuel s n) t
      ∧ Returns (fun fuel => Pinduoduo.sort fuel s n) t ∧ SortedIn {0} 1 n s t)
    ↔ n ≠ 2147483647 := by
  constructor
  · rintro ⟨t, ht, -⟩ rfl
    exact not_returns shsort_max ht
  · intro hmax
    have hlt : n < 2147483647 := lt_of_le_of_ne hint.2 hmax
    obtain ⟨t, ht, hsorted⟩ := shsort_ends hn₀ hn hlt
    exact ⟨t, ht, ht, ht, hsorted⟩

/-- The theorem at an array of five cells. -/
theorem shsort_sorts_four :
    (∃ t, Returns (fun fuel => shsort fuel [0, 3, 1, 3, 2] 4) t
      ∧ Returns (fun fuel => Paixu.shsort fuel [0, 3, 1, 3, 2] 4) t
      ∧ Returns (fun fuel => Pinduoduo.sort fuel [0, 3, 1, 3, 2] 4) t
      ∧ SortedIn {0} 1 4 [0, 3, 1, 3, 2] t)
    ↔ (4 : ℤ) ≠ 2147483647 :=
  shsort_sorts_iff (by decide) (by rw [IsInt32]; decide) (by decide)

/-- An array of zeros, of the largest size, is not sorted. -/
theorem shsort_max_fails :
    ¬ ∃ t, Returns (fun fuel => shsort fuel (List.replicate 2147483648 0) 2147483647) t
      ∧ SortedIn {0} 1 2147483647 (List.replicate 2147483648 0) t := by
  rintro ⟨t, ht, -⟩
  exact not_returns shsort_max ht

end Insertion

end Wgs.Sorting
