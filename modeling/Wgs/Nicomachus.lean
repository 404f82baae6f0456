import Wgs.Foundation.Loops
import Wgs.Foundation.MachineInt

/-!
`C/nikeqieshi.c`: a cube as a sum of consecutive odd numbers.

From about half of the cube down, every odd number is tried as the largest one: the odd numbers from
it down are added up until the sum reaches the cube.  The `n` odd numbers from `n² + n - 1` down
make `n³`, so the search ends there at the latest, and down to there all odd numbers that are left
make more than the cube, so no sum goes on to negative numbers (`searchLoop_ends`).

`definedInt32` stops the program where a sum is too large for an `int`.  An even cube is found at
once, but for an odd one the first three numbers make half as much again as the cube
(`search_overflows`).

What is printed is not what was added up: the loop that prints says `i - 1 * 2` where the sum has
`i - l * 2`, so every term but the last one comes out as the second largest number
(`printed_of_returns`).
-/

namespace Wgs.Nicomachus

open Foundation

/-! ### The program -/

/-- `while (1)`: `k`, and whether the sum has come to `m`. -/
def sumLoop (m i : ℤ) : ℕ → ℤ × ℤ → Option (ℤ × Bool) :=
  loop fun _ (sum, k) => do
    let less ← definedInt32 (2 * k)
    let term ← definedInt32 (i - less)
    let sum ← definedInt32 (sum + term)
    let k ← definedInt32 (k + 1)
    if sum = m then return .stop (k, true)
    else if sum > m then return .stop (k, false)
    else return .next (sum, k)

/-- What is printed: `n`, `m` and the terms behind the second `=`. -/
structure Printed where
  n : ℤ
  m : ℤ
  terms : List ℤ
  deriving DecidableEq

/-- The local variables that the loops change, and what they print. -/
structure Search where
  i : ℤ
  k : ℤ
  flag : ℤ
  printed : List Printed

/-- `for (l = 0; l < k - 1; l++) printf("%d+", i - 1 * 2);` and the last term. -/
def printedTerms (i k : ℤ) : List ℤ :=
  ((List.range (k - 1).toNat).map fun _ => i - 1 * 2) ++ [i - (k - 1) * 2]

/-- `while (flag == 1 && i >= 1)` -/
def searchLoop (n m : ℤ) : ℕ → Search → Option Search :=
  whileLoop
    (fun s => return s.flag = 1 ∧ s.i ≥ 1)
    (fun fuel s => do
      let (k, found) ← sumLoop m s.i fuel (0, 0)
      if found then return ⟨s.i - 2, k, 0, s.printed ++ [⟨n, m, printedTerms s.i k⟩]⟩
      else return ⟨s.i - 2, k, s.flag, s.printed⟩)

/-- `main`, for the number `n` that it reads. -/
def main (fuel : ℕ) (n : ℤ) : Option Search := do
  let square ← definedInt32 (n * n)
  let m ← definedInt32 (square * n)
  let i := m.tdiv 2
  let i := if i.tmod 2 = 0 then i + 1 else i
  searchLoop n m fuel ⟨i, 0, 1, []⟩

/-- The search ends with `flag = 0`, at positive odd numbers from `i` down that make the cube. -/
def Finds (n : ℤ) : Prop :=
  ∃ (i : ℤ) (k : ℕ) (printed : List Printed),
    Returns (fun fuel => main fuel n) ⟨i - 2, k, 0, printed⟩ ∧ Odd i ∧ 1 ≤ k
      ∧ (∀ l < k, 0 < i - 2 * l) ∧ ∑ l ∈ Finset.range k, (i - 2 * (l : ℤ)) = n ^ 3

/-- The search ends, and one line is printed: the `k` odd numbers from `i` down, which make the
cube. -/
def PrintsDecomposition (n : ℤ) : Prop :=
  ∃ (i : ℤ) (k : ℕ),
    Returns (fun fuel => main fuel n)
        ⟨i - 2, k, 0, [⟨n, n ^ 3, (List.range k).map fun l : ℕ => i - 2 * (l : ℤ)⟩]⟩
      ∧ Odd i ∧ 1 ≤ k ∧ ∑ l ∈ Finset.range k, (i - 2 * (l : ℤ)) = n ^ 3

/-! ### Sums of odd numbers -/

variable {n m i j k : ℤ}

/-- The sum of `i`, `i - 2` and so on, `k` numbers. -/
def runSum (i k : ℤ) : ℤ := k * (i - k + 1)

lemma runSum_succ (i k : ℤ) : runSum i (k + 1) = runSum i k + (i - 2 * k) := by
  rw [runSum, runSum]
  ring

lemma sum_eq_runSum (i : ℤ) (k : ℕ) : ∑ l ∈ Finset.range k, (i - 2 * (l : ℤ)) = runSum i k := by
  induction k with
  | zero => simp [runSum]
  | succ k ih => rw [Finset.sum_range_succ, ih, Nat.cast_succ, runSum_succ]

/-- The sums grow as long as the numbers are positive. -/
lemma runSum_le (hjk : j ≤ k) (hk : 2 * k ≤ i + 1) : runSum i j ≤ runSum i k := by
  have hdiff : runSum i k - runSum i j = (k - j) * (i + 1 - (k + j)) := by
    rw [runSum, runSum]
    ring
  have hnonneg : 0 ≤ (k - j) * (i + 1 - (k + j)) := mul_nonneg (by omega) (by omega)
  omega

/-- The largest of `n` odd numbers that make the cube. -/
def largest (n : ℤ) : ℤ := n ^ 2 + n - 1

lemma runSum_largest (n : ℤ) : runSum (largest n) n = n ^ 3 := by
  rw [runSum, largest]
  ring

lemma two_mul_le_largest (hn : 1 ≤ n) : 2 * n ≤ largest n + 1 := by
  have hmul : 1 * n ≤ n * n := mul_le_mul_of_nonneg_right hn (by omega)
  rw [largest, pow_two]
  omega

lemma odd_largest (n : ℤ) : Odd (largest n) := by
  have heven : Even (n * (n + 1)) := Int.even_mul_succ_self n
  have heq : largest n = n * (n + 1) - 1 := by
    rw [largest]
    ring
  rw [heq]
  exact heven.sub_odd odd_one

/-- From there up, all odd numbers that are left make the cube at least. -/
lemma cube_le_runSum (hn : 1 ≤ n) (hi : largest n ≤ i) (hk : 2 * k = i + 1) :
    n ^ 3 ≤ runSum i k := by
  have hsquare : runSum i k = k ^ 2 := by
    rw [runSum, show i = 2 * k - 1 by omega]
    ring
  rw [largest] at hi
  rw [hsquare]
  nlinarith [sq_nonneg (n - 1), mul_nonneg (show (0 : ℤ) ≤ n by omega) (show (0 : ℤ) ≤ n by omega)]

/-! ### The search -/

/-- **One start of the search** ends while the numbers are positive. -/
lemma sumLoop_ends (hn : 1 ≤ n) (hodd : Odd i) (hi : largest n ≤ i)
    (hfits : n ^ 3 - 1 + i ≤ 2147483647) :
    Ends (fun fuel => sumLoop (n ^ 3) i fuel (0, 0)) fun r => 1 ≤ r.1 ∧ 2 * r.1 ≤ i + 1
      ∧ if r.2 then runSum i r.1 = n ^ 3
        else runSum i (r.1 - 1) < n ^ 3 ∧ n ^ 3 < runSum i r.1 := by
  have hcube : 1 ≤ n ^ 3 := one_le_pow₀ hn
  have hlargest := two_mul_le_largest hn
  obtain ⟨c, rfl⟩ := hodd
  refine Ends.loop (I := fun s => s.1 = runSum (2 * c + 1) s.2 ∧ 0 ≤ s.2 ∧ 2 * s.2 ≤ 2 * c + 2
      ∧ s.1 < n ^ 3)
    (fun s => (n ^ 3 - s.1).toNat) (fun s hs => ?_)
    ⟨by rw [runSum, zero_mul], le_rfl, by dsimp only; omega, by dsimp only; omega⟩
  obtain ⟨sum, k⟩ := s
  obtain ⟨hval, hk, hkc, hsum⟩ := hs
  dsimp only at hval hk hkc hsum ⊢
  subst hval
  -- numbers are left, because all of them would make the cube
  have hleft : k ≤ c := by
    by_contra hgt
    have hall := cube_le_runSum (k := k) hn hi (by omega)
    omega
  have hnonneg := runSum_le (i := 2 * c + 1) hk (by omega)
  have hzero : runSum (2 * c + 1) 0 = 0 := by rw [runSum, zero_mul]
  have hsucc := runSum_succ (2 * c + 1) k
  have htwice := definedInt32_eq (x := 2 * k) ⟨by omega, by omega⟩
  have hterm := definedInt32_eq (x := 2 * c + 1 - 2 * k) ⟨by omega, by omega⟩
  have hnext := definedInt32_eq (x := runSum (2 * c + 1) (k + 1)) ⟨by omega, by omega⟩
  have hcount := definedInt32_eq (x := k + 1) ⟨by omega, by omega⟩
  simp only [htwice, hterm, ← hsucc, hnext, hcount, Option.bind_eq_bind, Option.bind_some]
  by_cases hfound : runSum (2 * c + 1) (k + 1) = n ^ 3
  · simp only [hfound, if_true]
    exact .of_eq (fun _ => rfl) ⟨by dsimp only; omega, by dsimp only; omega, hfound⟩
  · simp only [hfound, if_false]
    by_cases hlarge : runSum (2 * c + 1) (k + 1) > n ^ 3
    · simp only [hlarge, if_true]
      refine .of_eq (fun _ => rfl) ⟨by dsimp only; omega, by dsimp only; omega, ?_⟩
      exact ⟨by rwa [add_sub_cancel_right], hlarge⟩
    · simp only [hlarge, if_false]
      exact .of_eq (fun _ => rfl)
        ⟨⟨rfl, by dsimp only; omega, by dsimp only; omega, by dsimp only; omega⟩,
          by dsimp only; omega⟩

/-- What the search leaves when it has found the numbers. -/
def Found (n : ℤ) (s : Search) : Prop :=
  s.flag = 0 ∧ Odd (s.i + 2) ∧ 1 ≤ s.k ∧ 2 * s.k ≤ s.i + 3 ∧ runSum (s.i + 2) s.k = n ^ 3

/-- At the largest of the `n` numbers the sum comes to the cube. -/
lemma not_past_largest (hn : 1 ≤ n) (hk : 2 * k ≤ largest n + 1)
    (hless : runSum (largest n) (k - 1) < n ^ 3) : runSum (largest n) k ≤ n ^ 3 := by
  have hlargest := two_mul_le_largest hn
  rw [← runSum_largest n] at hless ⊢
  refine runSum_le ?_ hlargest
  by_contra hgt
  exact absurd (runSum_le (show n ≤ k - 1 by omega) (by omega)) (not_le.mpr hless)

/-- **The search ends**, at the largest of the `n` numbers if not before. -/
lemma searchLoop_ends (hn : 1 ≤ n) (hodd : Odd i) (hi : largest n ≤ i)
    (hfits : n ^ 3 - 1 + i ≤ 2147483647) :
    Ends (fun fuel => searchLoop n (n ^ 3) fuel ⟨i, 0, 1, []⟩) (Found n) := by
  have hlargest := two_mul_le_largest hn
  refine Ends.whileLoop
    (I := fun s => s.flag = 1 ∧ Odd s.i ∧ largest n ≤ s.i ∧ s.i ≤ i ∨ Found n s)
    (fun s => if s.flag = 1 then s.i.toNat + 1 else 0) (fun s hs => ?_)
    (Or.inl ⟨rfl, hodd, hi, le_rfl⟩)
  rcases hs with ⟨hflag, hodd, hlow, hhigh⟩ | hfound
  · refine Or.inl ⟨by simp [hflag, show s.i ≥ 1 by omega], ?_⟩
    refine (sumLoop_ends hn hodd hlow (by omega)).bind fun r hr => ?_
    obtain ⟨k, found⟩ := r
    obtain ⟨hk, hki, hsum⟩ := hr
    dsimp only at hk hki hsum
    cases found with
    | true =>
        refine .of_eq (fun _ => rfl) ⟨Or.inr ⟨rfl, ?_, hk, ?_, ?_⟩, ?_⟩ <;> dsimp only
        · rwa [sub_add_cancel]
        · omega
        · rw [sub_add_cancel]
          exact hsum
        · rw [hflag]
          simp
    | false =>
        obtain ⟨hless, hlarge⟩ : runSum s.i (k - 1) < n ^ 3 ∧ n ^ 3 < runSum s.i k := hsum
        have hne : s.i ≠ largest n := by
          intro heq
          rw [heq] at hless hlarge hki
          exact absurd hlarge (not_lt.mpr (not_past_largest hn hki hless))
        -- both are odd
        obtain ⟨c, hc⟩ := hodd
        obtain ⟨d, hd⟩ := odd_largest n
        refine .of_eq (fun _ => rfl) ⟨Or.inl ⟨hflag, ⟨c - 1, ?_⟩, ?_, ?_⟩, ?_⟩ <;> dsimp only
        · omega
        · omega
        · omega
        · rw [if_pos hflag, if_pos hflag]
          omega
  · exact Or.inr ⟨by simp [hfound.1], hfound⟩

/-- One turn of the loop that adds up, when its sum is an `int`. -/
lemma sumLoop_turn {sum : ℤ} {fuel : ℕ} (hk : 0 ≤ k) (hk' : k < 1000) (hi : 0 ≤ i)
    (hi' : i ≤ 2147483647) (hsum : IsInt32 (sum + (i - 2 * k))) :
    sumLoop m i (fuel + 1) (sum, k)
      = if sum + (i - 2 * k) = m then some (k + 1, true)
        else if m < sum + (i - 2 * k) then some (k + 1, false)
        else sumLoop m i fuel (sum + (i - 2 * k), k + 1) := by
  have htwice := definedInt32_eq (x := 2 * k) ⟨by omega, by omega⟩
  have hterm := definedInt32_eq (x := i - 2 * k) ⟨by omega, by omega⟩
  have hcount := definedInt32_eq (x := k + 1) ⟨by omega, by omega⟩
  simp only [sumLoop, loop, htwice, hterm, definedInt32_eq hsum, hcount, Option.bind_eq_bind,
    Option.bind_some, gt_iff_lt]
  split_ifs <;> rfl

/-- The numbers from the first start of an even cube make it at once. -/
lemma sumLoop_two (hi : 2 * i - 2 = m) (hpos : 2 < i) (hfits : m ≤ 2147483647) :
    Returns (fun fuel => sumLoop m i fuel (0, 0)) (2, true) := by
  refine .of_add 2 fun fuel => ?_
  rw [sumLoop_turn le_rfl (by decide) (by omega) (by omega) ⟨by omega, by omega⟩,
    if_neg (by omega), if_neg (by omega),
    sumLoop_turn (by decide) (by decide) (by omega) (by omega) ⟨by omega, by omega⟩,
    if_pos (by omega)]
  rfl

/-- **The third sum is too large** for an `int`. -/
lemma sumLoop_overflows (hi : 2 * i - 2 < m) (hfits : m ≤ 2147483647)
    (hlarge : 2147483647 < 3 * i - 6) (fuel : ℕ) : sumLoop m i fuel (0, 0) = none := by
  cases fuel with
  | zero => rfl
  | succ fuel =>
      rw [sumLoop_turn le_rfl (by decide) (by omega) (by omega) ⟨by omega, by omega⟩,
        if_neg (by omega), if_neg (by omega)]
      cases fuel with
      | zero => rfl
      | succ fuel =>
          rw [sumLoop_turn (by decide) (by decide) (by omega) (by omega) ⟨by omega, by omega⟩,
            if_neg (by omega), if_neg (by omega)]
          cases fuel with
          | zero => rfl
          | succ fuel =>
              have hthird := definedInt32_eq_none (x := 0 + (i - 2 * 0) + (i - 2 * (0 + 1))
                + (i - 2 * (0 + 1 + 1))) fun h => by have := h.2; omega
              have hterm := definedInt32_eq (x := i - 2 * (0 + 1 + 1)) ⟨by omega, by omega⟩
              have htwice := definedInt32_eq (x := 2 * (0 + 1 + 1)) ⟨by decide, by decide⟩
              simp only [sumLoop, loop, htwice, hterm, hthird, Option.bind_eq_bind,
                Option.bind_some, Option.bind_none]

/-! ### `main` -/

/-- The largest odd number that is tried. -/
def start (m : ℤ) : ℤ := if m / 2 % 2 = 0 then m / 2 + 1 else m / 2

lemma odd_start (m : ℤ) : Odd (start m) := by
  rw [start]
  split_ifs with heven
  · exact Int.odd_iff.mpr (by omega)
  · exact Int.odd_iff.mpr (by omega)

lemma main_eq (hn : 1 ≤ n) (hfits : n ^ 3 ≤ 2147483647) (fuel : ℕ) :
    main fuel n = searchLoop n (n ^ 3) fuel ⟨start (n ^ 3), 0, 1, []⟩ := by
  have hsquare : n * n ≤ n ^ 3 := by nlinarith
  have hpos : 1 ≤ n ^ 3 := one_le_pow₀ hn
  have hnonneg : 0 ≤ n * n := mul_self_nonneg n
  have hcube : n * n * n = n ^ 3 := by ring
  have hhalf : (n ^ 3).tdiv 2 = n ^ 3 / 2 := Int.tdiv_eq_ediv_of_nonneg (by omega)
  have hparity : (n ^ 3 / 2).tmod 2 = n ^ 3 / 2 % 2 := Int.tmod_eq_emod_of_nonneg (by omega)
  rw [main, definedInt32_eq ⟨by omega, by omega⟩, Option.bind_eq_bind, Option.bind_some, hcube,
    definedInt32_eq ⟨by omega, by omega⟩, Option.bind_some]
  simp only [hhalf, hparity, start]

/-- What is found, in the terms of the sum. -/
lemma finds_of_found {s : Search} (hs : Returns (fun fuel => main fuel n) s) (hfound : Found n s) :
    Finds n := by
  obtain ⟨i, k, flag, printed⟩ := s
  obtain ⟨hflag, hodd, hk, hki, hsum⟩ := hfound
  dsimp only at hflag hodd hk hki hsum
  obtain ⟨k, rfl⟩ := Int.eq_ofNat_of_zero_le (show 0 ≤ k by omega)
  subst hflag
  refine ⟨i + 2, k, printed, by rwa [add_sub_cancel_right], hodd, by omega, fun l hl => ?_, ?_⟩
  · obtain ⟨c, hc⟩ := hodd
    omega
  · rw [sum_eq_runSum, hsum]

/-- An even cube is found at the first start. -/
lemma finds_of_even (hn : 1 ≤ n) (heven : Even n) (hfits : n ^ 3 ≤ 2147483647) : Finds n := by
  obtain ⟨a, rfl⟩ := heven
  have ha : 1 ≤ a := by omega
  have hcube : (a + a) ^ 3 = 8 * a ^ 3 := by ring
  have hpos : 1 ≤ a ^ 3 := one_le_pow₀ ha
  have hstart : start ((a + a) ^ 3) = 4 * a ^ 3 + 1 := by
    rw [start, hcube, if_pos (by omega)]
    omega
  have htwo := sumLoop_two (i := 4 * a ^ 3 + 1) (m := (a + a) ^ 3) (by omega) (by omega) hfits
  have hends : Ends (fun fuel => main fuel (a + a)) (Found (a + a)) := by
    simp only [main_eq hn hfits, hstart]
    refine Ends.whileLoop_true (by simp; omega) ?_
    refine Ends.bind (Q := (· = (2, true))) ⟨_, htwo, rfl⟩ fun r hr => ?_
    subst hr
    refine .of_eq (fun _ => rfl) (Ends.whileLoop_false rfl ⟨rfl, ?_, ?_, ?_, ?_⟩)
      <;> dsimp only
    · rw [sub_add_cancel]
      exact ⟨2 * a ^ 3, by ring⟩
    · decide
    · omega
    · rw [sub_add_cancel, runSum, hcube]
      ring
  obtain ⟨s, hs, hfound⟩ := hends
  exact finds_of_found hs hfound

lemma largest_le_start (hn : 1 ≤ n) (hodd : Odd n) : largest n ≤ start (n ^ 3) := by
  rcases (show n = 1 ∨ 3 ≤ n by obtain ⟨c, rfl⟩ := hodd; omega) with rfl | hn₃
  · decide
  · have hsquare : 3 * n ≤ n ^ 2 := by nlinarith
    have hcube : 3 * n ^ 2 ≤ n ^ 3 := by nlinarith
    rw [largest, start]
    split_ifs <;> omega

/-- An odd cube is found as long as the sums are small enough. -/
lemma finds_of_odd (hn : 1 ≤ n) (hodd : Odd n) (hsmall : n ≤ 1127) : Finds n := by
  have hcube : n ^ 3 ≤ 1127 ^ 3 := pow_le_pow_left₀ (by omega) hsmall 3
  have hstart : start (n ^ 3) ≤ n ^ 3 / 2 + 1 := by
    rw [start]
    split_ifs <;> omega
  have hfits : n ^ 3 ≤ 2147483647 := by omega
  obtain ⟨s, hs, hfound⟩ :=
    searchLoop_ends hn (odd_start (n ^ 3)) (largest_le_start hn hodd) (by omega)
  refine finds_of_found ?_ hfound
  simp only [main_eq hn hfits]
  exact hs

/-- **Larger odd cubes**: the program is stopped at the first start. -/
lemma search_overflows (hodd : Odd n) (hlarge : 1129 ≤ n) (hfits : n ^ 3 ≤ 2147483647) (fuel : ℕ) :
    main fuel n = none := by
  have hcube : 1129 ^ 3 ≤ n ^ 3 := pow_le_pow_left₀ (by decide) hlarge 3
  obtain ⟨c, hc⟩ := hodd.pow (n := 3)
  have hstart : 2 * start (n ^ 3) - 2 < n ^ 3 ∧ n ^ 3 / 2 ≤ start (n ^ 3) := by
    rw [start]
    split_ifs <;> omega
  rw [main_eq (by omega) hfits]
  cases fuel with
  | zero => rfl
  | succ fuel =>
      have hnone := sumLoop_overflows hstart.1 hfits (by omega) fuel
      simp [searchLoop, whileLoop, loop, hnone]
      omega

/-- **When the search finds the cube**: exactly when `n` is even, or small enough for the sums of
the first three odd numbers. -/
theorem finds_iff (hn : 1 ≤ n) (hfits : n ^ 3 ≤ 2147483647) : Finds n ↔ Even n ∨ n ≤ 1127 := by
  constructor
  · rintro ⟨i, k, printed, hreturns, -⟩
    by_contra hnot
    rw [not_or, Int.not_even_iff_odd, not_le] at hnot
    obtain ⟨hodd, hlarge⟩ := hnot
    obtain ⟨c, hc⟩ := hodd
    exact not_returns (search_overflows ⟨c, hc⟩ (by omega) hfits) hreturns
  · intro hcond
    rcases Int.even_or_odd n with heven | hodd
    · exact finds_of_even hn heven hfits
    · refine finds_of_odd hn hodd (hcond.resolve_left ?_)
      rwa [Int.not_even_iff_odd]

/-- The cube of three. -/
theorem finds_iff_three : Finds 3 :=
  (finds_iff (by decide) (by decide)).mpr (Or.inr (by decide))

/-- **1241³ is within `int`**, but the sum of the first three odd numbers is not. -/
theorem finds_overflow : (1241 : ℤ) ^ 3 ≤ 2147483647 ∧ ¬ Finds 1241 := by
  refine ⟨by decide, ?_⟩
  rintro ⟨i, k, printed, hreturns, -⟩
  exact not_returns (search_overflows (by decide) (by decide) (by decide)) hreturns

/-! ### What is printed -/

/-- Below the cube, more than one number is added up. -/
lemma two_le_of_sumLoop {fuel : ℕ} {r : ℤ × Bool} (hi : i < m)
    (hr : sumLoop m i fuel (0, 0) = some r) (hfound : r.2 = true) : 2 ≤ r.1 := by
  refine loop_invariant (I := fun s : ℤ × ℤ => s = (0, 0) ∨ 1 ≤ s.2)
    (Q := fun r : ℤ × Bool => r.2 = true → 2 ≤ r.1) (fun fuel s c hs hc => ?_) (Or.inl rfl) hr
    hfound
  obtain ⟨sum, k⟩ := s
  obtain ⟨less, hless, hc⟩ := Option.bind_eq_some_iff.mp hc
  obtain ⟨term, hterm, hc⟩ := Option.bind_eq_some_iff.mp hc
  obtain ⟨sum', hsum, hc⟩ := Option.bind_eq_some_iff.mp hc
  obtain ⟨k', hk, hc⟩ := Option.bind_eq_some_iff.mp hc
  have hless := eq_of_definedInt32 hless
  have hterm := eq_of_definedInt32 hterm
  have hsum := eq_of_definedInt32 hsum
  have hk := eq_of_definedInt32 hk
  dsimp only at hs hless hterm hsum hk hc
  by_cases heq : sum' = m
  · rw [if_pos heq] at hc
    obtain rfl := Option.some_inj.mp hc
    intro _
    dsimp only
    rcases hs with hs | hs
    · -- the first sum is `i`, less than the cube
      obtain ⟨rfl, rfl⟩ := Prod.mk.inj hs
      omega
    · omega
  · rw [if_neg heq] at hc
    by_cases hlarge : sum' > m
    · rw [if_pos hlarge] at hc
      obtain rfl := Option.some_inj.mp hc
      intro hfalse
      cases hfalse
    · rw [if_neg hlarge] at hc
      obtain rfl := Option.some_inj.mp hc
      refine Or.inr ?_
      dsimp only
      rcases hs with hs | hs
      · obtain ⟨rfl, rfl⟩ := Prod.mk.inj hs
        omega
      · omega

/-- What is printed when the search below the cube ends: one line at most, with the terms that the
loop for them makes of the numbers found, which are two or more. -/
def Shown (n m : ℤ) (s : Search) : Prop :=
  s.flag = 1 ∧ s.i < m ∧ s.printed = []
    ∨ s.flag = 0 ∧ s.printed = [⟨n, m, printedTerms (s.i + 2) s.k⟩] ∧ 2 ≤ s.k

lemma Shown.searchLoop {fuel : ℕ} {s : Search} (hi : i < m)
    (hr : searchLoop n m fuel ⟨i, 0, 1, []⟩ = some s) : Shown n m s := by
  refine whileLoop_invariant (fun fuel s s' hs htest hbody => ?_) (Or.inl ⟨rfl, hi, rfl⟩) hr
  have hflag : s.flag = 1 := (decide_eq_true_iff.mp (Option.some_inj.mp htest)).1
  obtain ⟨hi, hprinted⟩ : s.i < m ∧ s.printed = [] := by
    rcases hs with hs | hs
    · exact hs.2
    · rw [hflag] at hs
      cases hs.1
  obtain ⟨⟨k, found⟩, hsum, hbody⟩ := Option.bind_eq_some_iff.mp hbody
  cases found with
  | true =>
      obtain rfl := Option.some_inj.mp hbody
      have hk : 2 ≤ k := two_le_of_sumLoop hi hsum rfl
      refine Or.inr ⟨rfl, ?_, hk⟩
      dsimp only
      rw [hprinted, sub_add_cancel, List.nil_append]
  | false =>
      obtain rfl := Option.some_inj.mp hbody
      exact Or.inl ⟨hflag, by dsimp only; omega, hprinted⟩

/-- With two numbers or more, the first term that is printed is the second largest number. -/
lemma head_printedTerms (hk : 2 ≤ k) : (printedTerms i k).head? = some (i - 2) := by
  obtain ⟨l, hl⟩ : ∃ l, (k - 1).toNat = l + 1 := ⟨(k - 2).toNat, by omega⟩
  rw [printedTerms, hl, List.range_succ_eq_map]
  rfl

/-- **No cube but that of one is printed as its decomposition.** -/
lemma not_printsDecomposition (hn : 2 ≤ n) (hfits : n ^ 3 ≤ 2147483647) :
    ¬ PrintsDecomposition n := by
  rintro ⟨i, k, ⟨N, hN⟩, -, hk, -⟩
  have hsquare : 2 ^ 2 ≤ n ^ 2 := pow_le_pow_left₀ (by decide) hn 2
  have hcube : n ^ 3 = n * n ^ 2 := by ring
  have hstart : start (n ^ 3) < n ^ 3 := by
    have hlarge : 2 * 2 ^ 2 ≤ n * n ^ 2 := mul_le_mul hn hsquare (by decide) (by omega)
    rw [start]
    split_ifs <;> omega
  have hrun : main N n = some _ := hN N le_rfl
  rw [main_eq (by omega) hfits] at hrun
  rcases Shown.searchLoop hstart hrun with hs | ⟨-, hprinted, hk₂⟩
  · cases hs.1
  · dsimp only at hprinted hk₂
    have hterms := (Printed.mk.inj (List.cons.inj hprinted).1).2.2
    have hhead := congrArg List.head? hterms
    rw [sub_add_cancel, head_printedTerms hk₂] at hhead
    obtain ⟨l, rfl⟩ := Nat.exists_eq_add_of_le' hk
    rw [List.range_succ_eq_map] at hhead
    have hfirst : i = i - 2 := by simpa using hhead
    omega

/-- The cube of one is its only term. -/
lemma main_one : Returns (fun fuel => main fuel 1) ⟨-1, 1, 0, [⟨1, 1, [1]⟩]⟩ :=
  .of_add 2 fun _ => rfl

/-- **When the terms printed are the numbers found**: for no cube but that of one. -/
theorem printsDecomposition_iff (hn : 1 ≤ n) (hfits : n ^ 3 ≤ 2147483647) :
    PrintsDecomposition n ↔ n = 1 := by
  constructor
  · intro hprints
    by_contra hne
    exact not_printsDecomposition (by omega) hfits hprints
  · rintro rfl
    exact ⟨1, 1, main_one, odd_one, le_rfl, rfl⟩

theorem printsDecomposition_iff_two : ¬ PrintsDecomposition 2 :=
  fun h => absurd ((printsDecomposition_iff (by decide) (by decide)).mp h) (by decide)

/-- **Eight is printed as `3+3`.** -/
theorem prints_second_number :
    Returns (fun fuel => main fuel 2) ⟨3, 2, 0, [⟨2, 8, [3, 3]⟩]⟩ ∧ ¬ PrintsDecomposition 2 :=
  ⟨.of_add 3 fun _ => rfl, not_printsDecomposition le_rfl (by decide)⟩

end Wgs.Nicomachus
