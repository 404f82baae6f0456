import Mathlib.Order.Bounds.Basic
import Wgs.Pinduoduo.Input

/-!
`main` of `C/pinduoduo/p1.c`: the largest product of three numbers.

Among the products of three of the sorted numbers, one of two is the largest: that of the last three
numbers, and that of the first two and the last one (`mul_le_max`).  The larger one of these is
printed if it is positive, and 0 if it is not (`main_prints_largest`).

Products are taken modulo 2³².  So the product of the first two factors need not be an `int`, as
long as that of all three is.
-/

namespace Wgs.Pinduoduo.TripleProduct

open Foundation

/-! ### The program -/

/-- `x * y * z` -/
def product (x y z : ℤ) : ℤ := toInt32 (toInt32 (x * y) * z)

/-- One test case, with the array that the one before has left: the number printed. -/
def testCase (fuel : ℕ) (A : Cells ℤ) (n : ℤ) (input : List ℤ) :
    Option (ℤ × Cells ℤ × List ℤ) := do
  let (A, input, _) ← readLoop n fuel (A, input, 1)
  let A ← Sorting.Pinduoduo.sort fuel A n
  let max1 := product (← A.load n) (← A.load (n - 1)) (← A.load (n - 2))
  let max2 := product (← A.load 1) (← A.load 2) (← A.load n)
  if max1 > 0 ∨ max2 > 0 then
    if max1 > max2 then return (max1, A, input) else return (max2, A, input)
  else return (0, A, input)

/-- `main`: the number printed for each case. -/
def main : ℕ → Cells ℤ → List ℤ → Option (List ℤ)
  | 0, _, _ => none
  | _ + 1, _, [] => some []
  | fuel + 1, A, n :: input => do
      let (out, A, input) ← testCase fuel A n input
      let rest ← main fuel A input
      return out :: rest

/-- The input of these test cases. -/
def tokens (cases : List (List ℤ)) : List ℤ := cases.flatMap fun xs => xs.length :: xs

/-! ### The largest product -/

/-- The products of three values at distinct places from 1 to `n`. -/
def products (f : ℤ → ℤ) (n : ℤ) : Set ℤ :=
  {p | ∃ i ∈ Set.Icc 1 n, ∃ j ∈ Set.Icc 1 n, ∃ k ∈ Set.Icc 1 n,
    i ≠ j ∧ j ≠ k ∧ i ≠ k ∧ p = f i * f j * f k}

section Products

variable {f g : ℤ → ℤ} {n i j k p : ℤ}

/-- Three of the numbers in ascending order. -/
lemma mul_le_max (hasc : AscendsOn f 1 n) (hi : 1 ≤ i) (hij : i < j) (hjk : j < k) (hk : k ≤ n) :
    f i * f j * f k ≤ max (f n * f (n - 1) * f (n - 2)) (f 1 * f 2 * f n) := by
  have hxy : f i ≤ f j := hasc i j hi hij.le (by omega)
  have hyz : f j ≤ f k := hasc j k (by omega) hjk.le hk
  have hxc : f i ≤ f (n - 2) := hasc i (n - 2) hi (by omega) (by omega)
  have hyd : f j ≤ f (n - 1) := hasc j (n - 1) (by omega) (by omega) (by omega)
  have hze : f k ≤ f n := hasc k n (by omega) hk le_rfl
  have hde : f (n - 1) ≤ f n := hasc (n - 1) n (by omega) (by omega) le_rfl
  have hax : f 1 ≤ f i := hasc 1 i le_rfl hi (by omega)
  have hby : f 2 ≤ f j := hasc 2 j (by omega) (by omega) (by omega)
  rcases lt_or_ge (f n) 0 with hneg | hpos
  · -- all numbers are negative, and those at the end are the least in absolute value
    have hcd : f (n - 2) * f (n - 1) ≤ f i * f j := by
      calc f (n - 2) * f (n - 1)
          ≤ f i * f (n - 1) := mul_le_mul_of_nonpos_right hxc (by omega)
        _ ≤ f i * f j := mul_le_mul_of_nonpos_left hyd (by omega)
    refine le_max_of_le_left ?_
    calc f i * f j * f k
        ≤ f i * f j * f n := mul_le_mul_of_nonneg_left hze (mul_nonneg_of_nonpos_of_nonpos
          (by omega) (by omega))
      _ ≤ f (n - 2) * f (n - 1) * f n := mul_le_mul_of_nonpos_right hcd hneg.le
      _ = f n * f (n - 1) * f (n - 2) := by ring
  · rcases le_or_gt 0 (f i * f j) with hxy₀ | hxy₀
    · have hlast : f i * f j * f k ≤ f i * f j * f n := mul_le_mul_of_nonneg_left hze hxy₀
      rcases le_or_gt 0 (f i) with hx | hx
      · refine le_max_of_le_left (hlast.trans ?_)
        calc f i * f j * f n
            ≤ f (n - 2) * f (n - 1) * f n := mul_le_mul_of_nonneg_right
              (mul_le_mul hxc hyd (by omega) (by omega)) hpos
          _ = f n * f (n - 1) * f (n - 2) := by ring
      · have hy : f j ≤ 0 := by
          by_contra hy
          exact absurd hxy₀ (not_le.mpr (mul_neg_of_neg_of_pos hx (not_le.mp hy)))
        refine le_max_of_le_right (hlast.trans (mul_le_mul_of_nonneg_right ?_ hpos))
        calc f i * f j
            ≤ f 1 * f j := mul_le_mul_of_nonpos_right hax hy
          _ ≤ f 1 * f 2 := mul_le_mul_of_nonpos_left hby (by omega)
    · -- the first number is negative, and the other two are not
      have hx : f i < 0 := by
        by_contra hx
        exact absurd hxy₀ (not_lt.mpr (mul_nonneg (not_lt.mp hx) (by omega)))
      have hy : 0 < f j := by
        by_contra hy
        exact absurd hxy₀ (not_lt.mpr (mul_nonneg_of_nonpos_of_nonpos hx.le (not_lt.mp hy)))
      refine le_max_of_le_left ?_
      rcases le_or_gt 0 (f (n - 2)) with hc | hc
      · calc f i * f j * f k
            ≤ 0 := (mul_neg_of_neg_of_pos hxy₀ (by omega)).le
          _ ≤ f n * f (n - 1) * f (n - 2) := mul_nonneg (mul_nonneg hpos (by omega)) hc
      · -- so they are the last two
        have hj : j = n - 1 := by
          by_contra hj
          have hle := hasc j (n - 2) (by omega) (by omega) (by omega)
          omega
        obtain rfl : k = n := by omega
        rw [hj]
        calc f i * f (k - 1) * f k
            = f i * (f (k - 1) * f k) := mul_assoc _ _ _
          _ ≤ f (k - 2) * (f (k - 1) * f k) :=
              mul_le_mul_of_nonneg_right hxc (mul_nonneg (by omega) hpos)
          _ = f k * f (k - 1) * f (k - 2) := by ring

lemma last_mem_products (hn : 3 ≤ n) : f n * f (n - 1) * f (n - 2) ∈ products f n :=
  ⟨n, ⟨by omega, le_rfl⟩, n - 1, ⟨by omega, by omega⟩, n - 2, ⟨by omega, by omega⟩,
    by omega, by omega, by omega, rfl⟩

lemma first_mem_products (hn : 3 ≤ n) : f 1 * f 2 * f n ∈ products f n :=
  ⟨1, ⟨le_rfl, by omega⟩, 2, ⟨by omega, by omega⟩, n, ⟨by omega, le_rfl⟩,
    by omega, by omega, by omega, rfl⟩

/-- **The largest product** of three of the numbers, in ascending order. -/
lemma isGreatest_products (hasc : AscendsOn f 1 n) (hn : 3 ≤ n) :
    IsGreatest (products f n) (max (f n * f (n - 1) * f (n - 2)) (f 1 * f 2 * f n)) := by
  constructor
  · rcases max_choice (f n * f (n - 1) * f (n - 2)) (f 1 * f 2 * f n) with hmax | hmax <;> rw [hmax]
    · exact last_mem_products hn
    · exact first_mem_products hn
  · -- the factors are taken in the order of their places
    rintro _ ⟨i, ⟨hi, hi'⟩, j, ⟨hj, hj'⟩, k, ⟨hk, hk'⟩, hij, hjk, hik, rfl⟩
    rcases lt_or_gt_of_ne hij with hij | hij <;> rcases lt_or_gt_of_ne hjk with hjk | hjk
    · exact mul_le_max hasc hi hij hjk hk'
    · rw [mul_right_comm]
      rcases lt_or_gt_of_ne hik with hik | hik
      · exact mul_le_max hasc hi hik hjk hj'
      · rw [mul_comm (f i)]
        exact mul_le_max hasc hk hik hij hj'
    · rw [mul_comm (f i)]
      rcases lt_or_gt_of_ne hik with hik | hik
      · exact mul_le_max hasc hj hij hik hk'
      · rw [mul_right_comm]
        exact mul_le_max hasc hj hjk hik hi'
    · rw [mul_comm (f i), mul_comm, ← mul_assoc]
      exact mul_le_max hasc hk hjk hij hi'

lemma products_subset (τ : Equiv.Perm ℤ) (hτ : ∀ i ∈ Set.Icc 1 n, τ i ∈ Set.Icc 1 n)
    (hfg : ∀ i ∈ Set.Icc 1 n, f i = g (τ i)) : products f n ⊆ products g n := by
  rintro _ ⟨i, hi, j, hj, k, hk, hij, hjk, hik, rfl⟩
  refine ⟨τ i, hτ i hi, τ j, hτ j hj, τ k, hτ k hk, τ.injective.ne hij, τ.injective.ne hjk,
    τ.injective.ne hik, ?_⟩
  rw [hfg i hi, hfg j hj, hfg k hk]

/-- The places may be permuted. -/
lemma products_of_sortedFrom {xs : List ℤ} {σ : Equiv.Perm ℤ} {s : Cells ℤ}
    (h : SortedFrom xs σ s) : products s.cell xs.length = products (nth xs) xs.length := by
  have hback : ∀ i ∈ Set.Icc (1 : ℤ) xs.length, σ.symm i ∈ Set.Icc (1 : ℤ) xs.length := by
    intro i hi
    rwa [← h.mem_iff, Equiv.apply_symm_apply]
  refine Set.Subset.antisymm ?_ ?_
  · exact products_subset σ (fun i hi => (h.mem_iff i).mpr hi) h.cell_eq
  · refine products_subset σ.symm hback fun i hi => ?_
    rw [h.cell_eq _ (hback i hi), Equiv.apply_symm_apply]

lemma product_eq {x y z : ℤ} (h : IsInt32 (x * y * z)) : product x y z = x * y * z := by
  rw [product, toInt32_toInt32_mul, toInt32_of_isInt32 h]

end Products

/-! ### The cases -/

/-- The numbers of a case: there are three or more and the array has room for them, and every
product of three is an `int`. -/
structure IsCase (xs : List ℤ) : Prop where
  three_le : 3 ≤ xs.length
  length_lt : xs.length < 1024
  isInt32 : ∀ p ∈ products (nth xs) xs.length, IsInt32 p

/-- What is printed: the largest product, or 0 where that is negative. -/
def IsPrinted (xs : List ℤ) (out : ℤ) : Prop :=
  ∃ p, IsGreatest (products (nth xs) xs.length) p ∧ out = max p 0

section Cases

variable {xs input : List ℤ} {cases : List (List ℤ)} {A : Cells ℤ}

lemma testCase_ends (hxs : IsCase xs) (hA : A.length = 1024) :
    Ends (fun fuel => testCase fuel A xs.length (xs ++ input)) fun r =>
      IsPrinted xs r.1 ∧ r.2.1.length = 1024 ∧ r.2.2 = input := by
  have hthree := hxs.three_le
  have hlt := hxs.length_lt
  refine (readLoop_ends (by omega) (by omega)).bind fun ⟨A₁, input₁, i⟩ ⟨hlen, hinput, hnth⟩ => ?_
  dsimp only at hlen hinput hnth
  refine (sort_ends (by omega) (by omega) hnth).bind fun A₂ ⟨hlen₂, σ, hsorted⟩ => ?_
  have hgreatest := isGreatest_products hsorted.ascends (by omega)
  have hint : ∀ p ∈ products A₂.cell xs.length, IsInt32 p := by
    rw [products_of_sortedFrom hsorted]
    exact hxs.isInt32
  have hmax1 := product_eq (hint _ (last_mem_products (by omega)))
  have hmax2 := product_eq (hint _ (first_mem_products (by omega)))
  have hload : ∀ i, 1 ≤ i → i ≤ (xs.length : ℤ) → A₂.load i = some (A₂.cell i) :=
    fun i hi hi' => Cells.load_eq (by omega) (by omega)
  rw [products_of_sortedFrom hsorted] at hgreatest
  set p := A₂.cell xs.length * A₂.cell (xs.length - 1) * A₂.cell (xs.length - 2)
  set q := A₂.cell 1 * A₂.cell 2 * A₂.cell xs.length
  refine .of_eq (r := (max (max p q) 0, A₂, input)) (fun _ => ?_)
    ⟨⟨_, hgreatest, rfl⟩, by dsimp only; omega, rfl⟩
  simp only [hload xs.length (by omega) le_rfl, hload (xs.length - 1) (by omega) (by omega),
    hload (xs.length - 2) (by omega) (by omega), hload 1 le_rfl (by omega),
    hload 2 (by omega) (by omega), Option.bind_eq_bind, Option.bind_some, hmax1, hmax2, hinput]
  split_ifs with hpos hlt
  · rw [max_eq_left hlt.le, max_eq_left (by omega)]
    rfl
  · rw [max_eq_right (not_lt.mp hlt), max_eq_left (by omega)]
    rfl
  · rw [max_eq_right (max_le (by omega) (by omega))]
    rfl

lemma main_ends (hcases : ∀ xs ∈ cases, IsCase xs) (hA : A.length = 1024) :
    Ends (fun fuel => main fuel A (tokens cases)) (List.Forall₂ IsPrinted cases) := by
  induction cases generalizing A with
  | nil => exact .of_succ (.of_eq (fun _ => rfl) .nil)
  | cons xs cases ih =>
      obtain ⟨hxs, hcases⟩ := List.forall_mem_cons.mp hcases
      refine .of_succ ((testCase_ends hxs hA).bind fun ⟨out, A', input⟩ ⟨hout, hA', hinput⟩ => ?_)
      dsimp only at hout hA' hinput
      subst hinput
      refine (ih hcases hA').bind fun outs houts => ?_
      exact .of_eq (fun _ => rfl) (.cons hout houts)

/-- **The largest product of three**: for every case, it is printed if it is positive, and 0 if it
is not. -/
theorem main_prints_largest (hcases : ∀ xs ∈ cases, IsCase xs) (hA : A.length = 1024) :
    ∃ outs, Returns (fun fuel => main fuel A (tokens cases)) outs
      ∧ List.Forall₂ IsPrinted cases outs :=
  main_ends hcases hA

/-- Of three numbers there is one product. -/
lemma eq_of_mem_products {f : ℤ → ℤ} {p : ℤ} (h : p ∈ products f 3) : p = f 1 * f 2 * f 3 := by
  obtain ⟨i, ⟨hi, hi'⟩, j, ⟨hj, hj'⟩, k, ⟨hk, hk'⟩, hij, hjk, hik, rfl⟩ := h
  interval_cases i <;> interval_cases j <;> interval_cases k <;> first | omega | ring

lemma isCase_of_three {x y z : ℤ} (h : IsInt32 (x * y * z)) : IsCase [x, y, z] := by
  refine ⟨le_rfl, by simp, fun p hp => ?_⟩
  rw [eq_of_mem_products hp]
  exact h

/-- Products of three numbers up to a thousand in absolute value are `int`s. -/
lemma isCase_of_le_thousand {xs : List ℤ} (hthree : 3 ≤ xs.length) (hlt : xs.length < 1024)
    (hsmall : ∀ i ∈ Set.Icc (1 : ℤ) xs.length, |nth xs i| ≤ 1000) : IsCase xs := by
  refine ⟨hthree, hlt, fun p hp => ?_⟩
  obtain ⟨i, hi, j, hj, k, hk, -, -, -, rfl⟩ := hp
  have hle : |nth xs i * nth xs j * nth xs k| ≤ 1000 * 1000 * 1000 := by
    rw [abs_mul, abs_mul]
    gcongr
    · exact hsmall i hi
    · exact hsmall j hj
    · exact hsmall k hk
  obtain ⟨hlow, hhigh⟩ := abs_le.mp hle
  exact ⟨by omega, by omega⟩

/-- The theorem at five numbers, the largest product of which is that of the two negative ones and
3. -/
theorem main_prints_largest_five :
    ∃ outs, Returns (fun fuel => main fuel (List.replicate 1024 0) (tokens [[3, -10, 1, -8, 2]]))
        outs
      ∧ List.Forall₂ IsPrinted [[3, -10, 1, -8, 2]] outs := by
  refine main_prints_largest (List.forall_mem_singleton.mpr ?_) List.length_replicate
  refine isCase_of_le_thousand (by decide) (by decide) fun i ⟨hi, hi'⟩ => ?_
  have hfive : i ≤ 5 := hi'
  interval_cases i <;> decide

/-- **Three negative numbers**: 0 is printed, which is not their product. -/
theorem main_prints_zero :
    Returns (fun fuel => main fuel (List.replicate 1024 0) (tokens [[-1, -2, -3]])) [0]
      ∧ ¬ IsGreatest (products (nth [-1, -2, -3]) 3) 0 := by
  have hproduct : ∀ p ∈ products (nth [-1, -2, -3]) 3, p = -6 := fun p hp => eq_of_mem_products hp
  have hends := main_ends (List.forall_mem_singleton.mpr (isCase_of_three
    (x := -1) (y := -2) (z := -3) (by decide))) (List.length_replicate (a := 0))
  obtain ⟨outs, houts, hprinted⟩ := hends
  cases hprinted with
  | cons hout hrest =>
      cases hrest
      obtain ⟨p, hp, rfl⟩ := hout
      rw [hproduct p hp.1] at houts
      exact ⟨houts, fun h => absurd (hproduct 0 h.1) (by decide)⟩

end Cases

end Wgs.Pinduoduo.TripleProduct
