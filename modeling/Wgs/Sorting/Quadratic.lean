import Wgs.Foundation.MachineInt
import Wgs.Foundation.Stability

/-!
`InsertSort`, `SelectSort` and `BubbleSort` of `C/huawei/paixu.c`.

The entries of `R` are records that are compared by key, with the values themselves as the keys in
the source.  Insertion shifts a record past those with greater keys, and a bubble pass exchanges
neighbours with keys out of order, so that both keep the records of one key in their order;
selection exchanges records at any distance.

`BubbleSort` returns when a pass exchanges nothing, with the range before the settled records in
order.  The counters of `InsertSort` and `SelectSort` go up to `n + 1`, which the largest `int` does
not leave room for (`quadratic_sorts_iff`).
-/

namespace Wgs.Sorting.Quadratic

open Foundation

/-! ### The program -/

section Program

variable {α : Type} (key : α → ℤ)

/-- `while (j >= 1 && R[j] > tmp) { R[j+1] = R[j]; j--; }` -/
def shiftLoop (tmp : α) : ℕ → Cells α × ℤ → Option (Cells α × ℤ) :=
  whileLoop
    (fun (R, j) => do if 1 ≤ j then return key (← R.load j) > key tmp else return false)
    (fun _ (R, j) => return (← R.store (j + 1) (← R.load j), j - 1))

/-- The body of the `for` loop of `InsertSort`. -/
def insert (fuel : ℕ) (R : Cells α) (i : ℤ) : Option (Cells α) := do
  let tmp ← R.load i
  let (R, j) ← shiftLoop key tmp fuel (R, i - 1)
  R.store (j + 1) tmp

/-- `for (i = 2; i <= n; i++)`, from some `i` on. -/
def insertLoop (n : ℤ) : ℕ → Cells α × ℤ → Option (Cells α × ℤ) :=
  whileLoop
    (fun (_, i) => return i ≤ n)
    (fun fuel (R, i) => return (← insert key fuel R i, toInt32 (i + 1)))

/-- `InsertSort`. -/
def insertSort (fuel : ℕ) (R : Cells α) (n : ℤ) : Option (Cells α) := do
  let (R, _) ← insertLoop key n fuel (R, 2)
  return R

/-- `for (j = i + 1; j <= n; j++) if (R[j] < R[k]) k = j;`, from some `j` and `k` on. -/
def leastLoop (R : Cells α) (n : ℤ) : ℕ → ℤ × ℤ → Option (ℤ × ℤ) :=
  whileLoop
    (fun (_, j) => return j ≤ n)
    (fun _ (k, j) => do
      if key (← R.load j) < key (← R.load k) then return (j, toInt32 (j + 1))
      else return (k, toInt32 (j + 1)))

/-- The body of the `for` loop of `SelectSort`. -/
def select (fuel : ℕ) (R : Cells α) (n i : ℤ) : Option (Cells α) := do
  let (k, _) ← leastLoop key R n fuel (i, toInt32 (i + 1))
  let tmp ← R.load i
  let R ← R.store i (← R.load k)
  R.store k tmp

/-- `for (i = 1; i <= n; i++)`, from some `i` on. -/
def selectLoop (n : ℤ) : ℕ → Cells α × ℤ → Option (Cells α × ℤ) :=
  whileLoop
    (fun (_, i) => return i ≤ n)
    (fun fuel (R, i) => return (← select key fuel R n i, toInt32 (i + 1)))

/-- `SelectSort`. -/
def selectSort (fuel : ℕ) (R : Cells α) (n : ℤ) : Option (Cells α) := do
  let (R, _) ← selectLoop key n fuel (R, 1)
  return R

/-- `for (j = 1; j < i; j++) if (R[j] > R[j+1]) { … flag = 1; }`, from some `j` and `flag` on. -/
def bubblePass (i : ℤ) : ℕ → Cells α × ℤ × ℤ → Option (Cells α × ℤ × ℤ) :=
  whileLoop
    (fun (_, _, j) => return j < i)
    (fun _ (R, flag, j) => do
      if key (← R.load j) > key (← R.load (j + 1)) then
        let tmp ← R.load j
        let R ← R.store j (← R.load (j + 1))
        let R ← R.store (j + 1) tmp
        return (R, 1, j + 1)
      else return (R, flag, j + 1))

/-- `BubbleSort`. -/
def bubbleSort (fuel : ℕ) (R : Cells α) (n : ℤ) : Option (Cells α) :=
  loop (fun fuel (R, i) => do
    if i ≥ 2 then
      let (R, flag, _) ← bubblePass key i fuel (R, 0, 1)
      if flag = 0 then return .stop R
      return .next (R, i - 1)
    else return .stop R) fuel (R, n)

end Program

section Proofs

variable {α : Type} {key : α → ℤ} {R₀ R R' : Cells α} {i j k n : ℤ} {tmp : α}

/-! ### `InsertSort` -/

/-- With the largest `int` there is, `InsertSort` does not come to an end. -/
lemma insertSort_max (fuel : ℕ) : insertSort key fuel R 2147483647 = none := by
  have hloop : insertLoop key 2147483647 fuel (R, 2) = none :=
    whileLoop_counter_eq_none (fun _ _ => rfl) (fun _ _ _ => rfl) (fun _ => (isInt32_toInt32 _).2)
      (by decide) fuel
  rw [insertSort, hloop]
  rfl

variable [Inhabited α]

/-- The array while the record `tmp` of the cell `i` is inserted, with a hole behind `j`: the cells
up to `i` ascend but for the hole, and what follows it is greater. -/
structure Shifting (key : α → ℤ) (R₀ : Cells α) (n i : ℤ) (tmp : α) (R : Cells α) (j : ℤ) :
    Prop where
  length_eq : R.length = R₀.length
  nonneg : 0 ≤ j
  lt : j < i
  keeps : KeepsGroups key 1 n R₀.cell (Function.update R.cell (j + 1) tmp)
  ordered : ∀ a b, 1 ≤ a → a ≤ b → b ≤ i → a ≠ j + 1 → b ≠ j + 1 →
    key (R.cell a) ≤ key (R.cell b)
  above : ∀ b, j + 1 < b → b ≤ i → key tmp < key (R.cell b)

/-- One shift: the hole moves down. -/
lemma Shifting.shift (hs : Shifting key R₀ n i tmp R j) (hin : i ≤ n) (hj : 1 ≤ j)
    (hkey : key tmp < key (R.cell j)) (hlen : R'.length = R.length)
    (hR' : R'.cell = Function.update R.cell (j + 1) (R.cell j)) :
    Shifting key R₀ n i tmp R' (j - 1) where
  length_eq := hlen.trans hs.length_eq
  nonneg := by omega
  lt := by
    have hlt := hs.lt
    omega
  keeps := by
    have hlt := hs.lt
    have hne : j + 1 ≠ j := by omega
    rw [sub_add_cancel, hR', update_hole_eq_swap hne, Equiv.swap_comm]
    refine hs.keeps.trans (.swap hj (by omega) ?_)
    rw [Function.update_self, Function.update_of_ne hne.symm]
    exact hkey.ne'
  ordered := by
    intro a b ha hab hb hne hne'
    rw [sub_add_cancel] at hne hne'
    rw [hR']
    rcases eq_or_ne a (j + 1) with rfl | haj
    · rw [Function.update_self]
      rcases eq_or_ne b (j + 1) with rfl | hbj
      · rw [Function.update_self]
      · rw [Function.update_of_ne hbj]
        exact hs.ordered j b hj (by omega) hb (by omega) hbj
    · rw [Function.update_of_ne haj]
      rcases eq_or_ne b (j + 1) with rfl | hbj
      · rw [Function.update_self]
        exact hs.ordered a j ha (by omega) (by omega) haj (by omega)
      · rw [Function.update_of_ne hbj]
        exact hs.ordered a b ha hab hb haj hbj
  above := by
    intro b hb hbi
    rw [hR']
    rcases eq_or_ne b (j + 1) with rfl | hbj
    · rw [Function.update_self]
      exact hkey
    · rw [Function.update_of_ne hbj]
      exact hs.above b (by omega) hbi

/-- The record is put into the hole. -/
lemma Shifting.ascends_fill (hs : Shifting key R₀ n i tmp R j)
    (hkey : 1 ≤ j → key (R.cell j) ≤ key tmp) :
    AscendsOn (fun a => key (Function.update R.cell (j + 1) tmp a)) 1 i := by
  intro a b ha hab hb
  dsimp only
  rcases eq_or_ne a (j + 1) with rfl | haj
  · rw [Function.update_self]
    rcases eq_or_ne b (j + 1) with rfl | hbj
    · rw [Function.update_self]
    · rw [Function.update_of_ne hbj]
      exact (hs.above b (by omega) hb).le
  · rw [Function.update_of_ne haj]
    rcases eq_or_ne b (j + 1) with rfl | hbj
    · rw [Function.update_self]
      have hlt := hs.lt
      exact (hs.ordered a j ha (by omega) (by omega) haj (by omega)).trans (hkey (by omega))
    · rw [Function.update_of_ne hbj]
      exact hs.ordered a b ha hab hb haj hbj

/-- The hole stops where the record belongs. -/
lemma shiftLoop_ends (hin : i ≤ n) (hn : n < R₀.length) (hs : Shifting key R₀ n i tmp R j) :
    Ends (fun fuel => shiftLoop key tmp fuel (R, j)) fun r => Shifting key R₀ n i tmp r.1 r.2
      ∧ (1 ≤ r.2 → key (r.1.cell r.2) ≤ key tmp) := by
  refine Ends.whileLoop (I := fun r => Shifting key R₀ n i tmp r.1 r.2) (fun r => r.2.toNat)
    (fun r hr => ?_) hs
  obtain ⟨R, j⟩ := r
  dsimp only at hr ⊢
  have hlen := hr.length_eq
  have hlt := hr.lt
  by_cases hj : 1 ≤ j
  · have hload := Cells.load_eq (s := R) (show 0 ≤ j by omega) (by omega)
    by_cases hcmp : key tmp < key (R.cell j)
    · refine Or.inl ⟨by simp [hj, hload, hcmp], ?_⟩
      refine Ends.load (by omega) (by omega) (Ends.store (by omega) (by omega)
        fun R' hlen' hR' => ?_)
      refine .of_eq (fun _ => rfl) ⟨hr.shift hin hj hcmp hlen' hR', ?_⟩
      dsimp only
      omega
    · exact Or.inr ⟨by simp [hj, hload, hcmp], hr, fun _ => not_lt.mp hcmp⟩
  · exact Or.inr ⟨by simp [hj], hr, fun h => absurd h hj⟩

/-- One more record is inserted. -/
lemma insert_ends (hi : 2 ≤ i) (hin : i ≤ n) (hn : n < R.length)
    (hasc : AscendsOn (fun a => key (R.cell a)) 1 (i - 1)) :
    Ends (fun fuel => insert key fuel R i) fun R' => R'.length = R.length
      ∧ KeepsGroups key 1 n R.cell R'.cell ∧ AscendsOn (fun a => key (R'.cell a)) 1 i := by
  simp only [insert]
  refine Ends.load (by omega) (by omega) ?_
  have hstart : Shifting key R n i (R.cell i) R (i - 1) := by
    refine ⟨rfl, by omega, by omega, ?_, fun a b ha hab hb _ hne => ?_, fun b hb hbi => ?_⟩
    · rw [sub_add_cancel, Function.update_eq_self]
      exact .refl _ _ _ _
    · exact hasc a b ha hab (by omega)
    · omega
  refine (shiftLoop_ends hin hn hstart).bind fun ⟨R', j⟩ ⟨hR', hkey⟩ => ?_
  dsimp only at hR' hkey ⊢
  have hlen := hR'.length_eq
  have hnonneg := hR'.nonneg
  have hlt := hR'.lt
  obtain ⟨R'', hR'', hlen', hcell⟩ := Cells.store_spec (s := R') (i := j + 1) (by omega) (by omega)
    (R.cell i)
  refine .of_eq (fun _ => hR'') ⟨hlen'.trans hlen, ?_⟩
  rw [hcell]
  exact ⟨hR'.keeps, hR'.ascends_fill hkey⟩

/-- One record after the other is inserted. -/
lemma insertLoop_ends (hn : n < R.length) (hmax : n < 2147483647) :
    Ends (fun fuel => insertLoop key n fuel (R, 2)) fun r => r.1.length = R.length
      ∧ KeepsGroups key 1 n R.cell r.1.cell ∧ AscendsOn (fun a => key (r.1.cell a)) 1 n := by
  refine Ends.whileLoop
    (I := fun r => r.1.length = R.length ∧ 2 ≤ r.2 ∧ KeepsGroups key 1 n R.cell r.1.cell
      ∧ AscendsOn (fun a => key (r.1.cell a)) 1 (min n (r.2 - 1)))
    (fun r => (n + 1 - r.2).toNat) (fun r hr => ?_) ⟨rfl, le_rfl, .refl _ _ _ _, ?_⟩
  · obtain ⟨R', i⟩ := r
    obtain ⟨hlen, hi, hkeeps, hasc⟩ := hr
    dsimp only at *
    by_cases hin : i ≤ n
    · rw [min_eq_right (by omega)] at hasc
      refine Or.inl ⟨by simp [hin], ?_⟩
      refine (insert_ends hi hin (by omega) hasc).bind fun R'' ⟨hlen', hkeeps', hasc'⟩ => ?_
      have hnext : toInt32 (i + 1) = i + 1 := toInt32_of_isInt32 ⟨by omega, by omega⟩
      refine .of_eq (fun _ => rfl)
        ⟨⟨hlen'.trans hlen, ?_, hkeeps.trans hkeeps', ?_⟩, ?_⟩ <;> dsimp only <;> rw [hnext]
      · omega
      · rwa [add_sub_cancel_right, min_eq_right hin]
      · omega
    · rw [min_eq_left (by omega)] at hasc
      exact Or.inr ⟨by simp [hin], hlen, hkeeps, hasc⟩
  · intro a b ha hab hb
    obtain rfl : a = b := by
      dsimp only at hb
      omega
    exact le_rfl

/-- **`InsertSort`** is a stable sort. -/
lemma insertSort_ends (hn : n < R.length) (hmax : n < 2147483647) :
    Ends (fun fuel => insertSort key fuel R n) (StablySortedIn key 1 n R) := by
  refine (insertLoop_ends hn hmax).bind fun ⟨R', i⟩ ⟨hlen, hkeeps, hasc⟩ => ?_
  exact .of_eq (fun _ => rfl) (.of_keepsGroups zero_le_one hn hlen hkeeps hasc)

/-! ### `SelectSort` -/

/-- The loop finds a record of the least key. -/
lemma leastLoop_ends (hi : 1 ≤ i) (hin : i ≤ n) (hn : n < R.length) (hmax : n < 2147483647) :
    Ends (fun fuel => leastLoop key R n fuel (i, i + 1)) fun r =>
      i ≤ r.1 ∧ r.1 ≤ n ∧ ∀ a ∈ Set.Icc i n, key (R.cell r.1) ≤ key (R.cell a) := by
  refine Ends.whileLoop
    (I := fun r => i ≤ r.1 ∧ r.1 ≤ n ∧ i < r.2
      ∧ ∀ a ∈ Set.Icc i n, a < r.2 → key (R.cell r.1) ≤ key (R.cell a))
    (fun r => (n + 1 - r.2).toNat) (fun r hr => ?_)
    ⟨le_rfl, hin, by dsimp only; omega, fun a ha hlt => ?_⟩
  · obtain ⟨k, j⟩ := r
    obtain ⟨hik, hkn, hij, hleast⟩ := hr
    dsimp only at *
    by_cases hj : j ≤ n
    · have hnext : toInt32 (j + 1) = j + 1 := toInt32_of_isInt32 ⟨by omega, by omega⟩
      refine Or.inl ⟨by simp [hj], Ends.load (by omega) (by omega)
        (Ends.load (by omega) (by omega) ?_)⟩
      rw [hnext]
      by_cases hcmp : key (R.cell j) < key (R.cell k)
      · refine .of_eq (r := (j, j + 1)) (fun _ => by simp [hcmp])
          ⟨⟨by dsimp only; omega, hj, by dsimp only; omega, fun a ha hlt => ?_⟩,
            by dsimp only; omega⟩
        dsimp only at hlt ⊢
        rcases (Int.lt_add_one_iff.mp hlt).lt_or_eq with hlt' | rfl
        · exact hcmp.le.trans (hleast a ha hlt')
        · exact le_rfl
      · refine .of_eq (r := (k, j + 1)) (fun _ => by simp [hcmp])
          ⟨⟨hik, hkn, by dsimp only; omega, fun a ha hlt => ?_⟩, by dsimp only; omega⟩
        dsimp only at hlt ⊢
        rcases (Int.lt_add_one_iff.mp hlt).lt_or_eq with hlt' | rfl
        · exact hleast a ha hlt'
        · exact not_lt.mp hcmp
    · exact Or.inr ⟨by simp [hj], hik, hkn, fun a ha => hleast a ha (by have := ha.2; omega)⟩
  · obtain rfl : a = i := by
      have hle := ha.1
      dsimp only at hlt
      omega
    exact le_rfl

/-- The record of the least key goes to the front. -/
lemma select_ends (hi : 1 ≤ i) (hin : i ≤ n) (hn : n < R.length) (hmax : n < 2147483647) :
    Ends (fun fuel => select key fuel R n i) fun R' => R'.length = R.length
      ∧ ∃ k ∈ Set.Icc i n, R'.cell = R.cell ∘ Equiv.swap i k
        ∧ ∀ a ∈ Set.Icc i n, key (R.cell k) ≤ key (R.cell a) := by
  have hnext : toInt32 (i + 1) = i + 1 := toInt32_of_isInt32 ⟨by omega, by omega⟩
  simp only [select, hnext]
  refine (leastLoop_ends hi hin hn hmax).bind fun ⟨k, j⟩ ⟨hik, hkn, hleast⟩ => ?_
  dsimp only at hik hkn hleast ⊢
  refine Ends.load (by omega) (by omega) (Ends.load (by omega) (by omega)
    (Ends.store (by omega) (by omega) fun R₁ hlen₁ hR₁ => ?_))
  obtain ⟨R₂, hR₂, hlen₂, hcell₂⟩ := Cells.store_spec (s := R₁) (i := k) (by omega) (by omega)
    (R.cell i)
  refine .of_eq (fun _ => hR₂) ⟨hlen₂.trans hlen₁, k, ⟨hik, hkn⟩, ?_, hleast⟩
  rw [hcell₂, hR₁, update_eq_swap]

/-- The records in front of `i` stay settled when a least one of the others is put behind them. -/
lemma settled_select (hi : 1 ≤ i) (hk : k ∈ Set.Icc i n)
    (hsettled : ∀ a b, 1 ≤ a → a < i → a ≤ b → b ≤ n → key (R.cell a) ≤ key (R.cell b))
    (hleast : ∀ a ∈ Set.Icc i n, key (R.cell k) ≤ key (R.cell a))
    (hR' : R'.cell = R.cell ∘ Equiv.swap i k) :
    ∀ a b, 1 ≤ a → a < i + 1 → a ≤ b → b ≤ n → key (R'.cell a) ≤ key (R'.cell b) := by
  obtain ⟨hik, hkn⟩ := hk
  intro a b ha hai hab hb
  -- the exchange does not leave the records from `i` on
  have hmem : i ≤ b → Equiv.swap i k b ∈ Set.Icc i n := fun hib => by
    rw [Equiv.swap_apply_def]
    split_ifs
    · exact ⟨hik, hkn⟩
    · exact ⟨le_rfl, hik.trans hkn⟩
    · exact ⟨hib, hb⟩
  rw [hR', Function.comp_apply, Function.comp_apply]
  rcases (Int.lt_add_one_iff.mp hai).lt_or_eq with hlt | rfl
  · rw [Equiv.swap_apply_of_ne_of_ne hlt.ne (by omega)]
    by_cases hib : i ≤ b
    · have hle := (hmem hib).1
      exact hsettled a _ ha hlt (by omega) (hmem hib).2
    · rw [Equiv.swap_apply_of_ne_of_ne (by omega) (by omega)]
      exact hsettled a b ha hlt hab hb
  · rw [Equiv.swap_apply_left]
    exact hleast _ (hmem hab)

/-- One record after the other is selected. -/
lemma selectLoop_ends (hn : n < R.length) (hmax : n < 2147483647) :
    Ends (fun fuel => selectLoop key n fuel (R, 1)) fun r => r.1.length = R.length
      ∧ Rearranges (Set.Icc 1 n) R.cell r.1.cell
      ∧ AscendsOn (fun a => key (r.1.cell a)) 1 n := by
  refine Ends.whileLoop
    (I := fun r => r.1.length = R.length ∧ 1 ≤ r.2 ∧ Rearranges (Set.Icc 1 n) R.cell r.1.cell
      ∧ ∀ a b, 1 ≤ a → a < r.2 → a ≤ b → b ≤ n → key (r.1.cell a) ≤ key (r.1.cell b))
    (fun r => (n + 1 - r.2).toNat) (fun r hr => ?_)
    ⟨rfl, le_rfl, .refl _ _, fun a b ha hlt => by dsimp only at hlt; omega⟩
  obtain ⟨R', i⟩ := r
  obtain ⟨hlen, hi, hrearr, hsettled⟩ := hr
  dsimp only at *
  by_cases hin : i ≤ n
  · refine Or.inl ⟨by simp [hin], ?_⟩
    refine (select_ends hi hin (by omega) hmax).bind fun R'' ⟨hlen', k, hk, hR'', hleast⟩ => ?_
    have hnext : toInt32 (i + 1) = i + 1 := toInt32_of_isInt32 ⟨by omega, by omega⟩
    have hmono : Set.Icc i n ⊆ Set.Icc 1 n := Set.Icc_subset_Icc hi (le_refl n)
    have hrearr' := hrearr.trans (.swap R'.cell (hmono ⟨le_refl i, hin⟩) (hmono hk))
    rw [← hR''] at hrearr'
    refine .of_eq (fun _ => rfl) ⟨⟨hlen'.trans hlen, ?_, hrearr', ?_⟩, ?_⟩
      <;> dsimp only <;> rw [hnext]
    · omega
    · exact settled_select hi hk hsettled hleast hR''
    · omega
  · exact Or.inr ⟨by simp [hin], hlen, hrearr, fun a b ha hab hb =>
      hsettled a b ha (by omega) hab hb⟩

/-- **`SelectSort`** is a sort. -/
lemma selectSort_ends (hn : n < R.length) (hmax : n < 2147483647) :
    Ends (fun fuel => selectSort key fuel R n) (SortedByKey key 1 n R) := by
  refine (selectLoop_ends hn hmax).bind fun ⟨R', i⟩ ⟨hlen, hrearr, hasc⟩ => ?_
  exact .of_eq (fun _ => rfl) (.of_rearranges zero_le_one hn hlen hrearr hasc)

/-! ### `BubbleSort` -/

/-- The records behind `i` are settled: they are in order, and none in front of them is greater. -/
def Settled (key : α → ℤ) (i n : ℤ) (f : ℤ → α) : Prop :=
  ∀ a b, 1 ≤ a → a ≤ b → i < b → b ≤ n → key (f a) ≤ key (f b)

/-- The array in a pass of `BubbleSort`, before the step at `j`: the greatest record so far is at
`j`, and as long as nothing was exchanged the records up to `j` are in order. -/
structure Bubbling (key : α → ℤ) (R₀ : Cells α) (n i : ℤ) (R : Cells α) (flag j : ℤ) : Prop where
  length_eq : R.length = R₀.length
  pos : 1 ≤ j
  le : j ≤ i
  keeps : KeepsGroups key 1 n R₀.cell R.cell
  settled : Settled key i n R.cell
  greatest : ∀ a, 1 ≤ a → a ≤ j → key (R.cell a) ≤ key (R.cell j)
  ordered : flag = 0 → AscendsOn (fun a => key (R.cell a)) 1 j

/-- A greater record goes on to the next cell. -/
lemma Bubbling.exchange {flag : ℤ} (h : Bubbling key R₀ n i R flag j) (hin : i ≤ n) (hji : j < i)
    (hcmp : key (R.cell (j + 1)) < key (R.cell j)) (hlen : R'.length = R.length)
    (hR' : R'.cell = R.cell ∘ Equiv.swap j (j + 1)) : Bubbling key R₀ n i R' 1 (j + 1) where
  length_eq := hlen.trans h.length_eq
  pos := by
    have hpos := h.pos
    omega
  le := by omega
  keeps := by
    rw [hR']
    exact h.keeps.trans (.swap h.pos (by omega) hcmp.ne')
  settled := by
    intro a b ha hab hib hb
    have hpos := h.pos
    have hb' : Equiv.swap j (j + 1) b = b :=
      Equiv.swap_apply_of_ne_of_ne (by omega) (by omega)
    rw [hR', Function.comp_apply, Function.comp_apply, hb', Equiv.swap_apply_def]
    split_ifs
    · exact h.settled _ b (by omega) (by omega) hib hb
    · exact h.settled _ b hpos (by omega) hib hb
    · exact h.settled a b ha hab hib hb
  greatest := by
    intro a ha haj
    rw [hR', Function.comp_apply, Function.comp_apply, Equiv.swap_apply_right,
      Equiv.swap_apply_def]
    split_ifs
    · exact hcmp.le
    · exact le_rfl
    · exact h.greatest a ha (by omega)
  ordered := fun hflag => absurd hflag one_ne_zero

/-- The next record is at least as great. -/
lemma Bubbling.pass {flag : ℤ} (h : Bubbling key R₀ n i R flag j) (hji : j < i)
    (hcmp : ¬ key (R.cell (j + 1)) < key (R.cell j)) : Bubbling key R₀ n i R flag (j + 1) where
  length_eq := h.length_eq
  pos := by
    have hpos := h.pos
    omega
  le := by omega
  keeps := h.keeps
  settled := h.settled
  greatest := by
    intro a ha haj
    rcases haj.lt_or_eq with hlt | rfl
    · exact (h.greatest a ha (by omega)).trans (not_lt.mp hcmp)
    · exact le_rfl
  ordered := by
    intro hflag a b ha hab hb
    rcases hb.lt_or_eq with hlt | rfl
    · exact h.ordered hflag a b ha hab (by omega)
    · rcases hab.lt_or_eq with hlt | rfl
      · exact (h.greatest a ha (by omega)).trans (not_lt.mp hcmp)
      · exact le_rfl

/-- A pass brings the greatest record to its end. -/
lemma bubblePass_ends (hi : 1 ≤ i) (hin : i ≤ n) (hn : n < R.length)
    (hsettled : Settled key i n R.cell) :
    Ends (fun fuel => bubblePass key i fuel (R, 0, 1)) fun r =>
      Bubbling key R n i r.1 r.2.1 i := by
  refine Ends.whileLoop (I := fun r => Bubbling key R n i r.1 r.2.1 r.2.2)
    (fun r => (i - r.2.2).toNat) (fun r hr => ?_) ⟨rfl, le_rfl, hi, .refl _ _ _ _, hsettled, ?_, ?_⟩
  · obtain ⟨R', flag, j⟩ := r
    dsimp only at hr ⊢
    have hlen := hr.length_eq
    have hpos := hr.pos
    have hle := hr.le
    by_cases hj : j < i
    · refine Or.inl ⟨by simp [hj], Ends.load (by omega) (by omega)
        (Ends.load (by omega) (by omega) ?_)⟩
      by_cases hcmp : key (R'.cell j) > key (R'.cell (j + 1))
      · simp only [if_pos hcmp]
        refine Ends.load (by omega) (by omega) (Ends.load (by omega) (by omega)
          (Ends.store (by omega) (by omega) fun R₁ hlen₁ hR₁ =>
            Ends.store (by omega) (by omega) fun R₂ hlen₂ hR₂ => ?_))
        rw [hR₁, update_eq_swap] at hR₂
        refine .of_eq (fun _ => rfl) ⟨hr.exchange hin hj hcmp (hlen₂.trans hlen₁) hR₂, ?_⟩
        dsimp only
        omega
      · simp only [if_neg hcmp]
        refine .of_eq (fun _ => rfl) ⟨hr.pass hj hcmp, ?_⟩
        dsimp only
        omega
    · obtain rfl : j = i := by omega
      exact Or.inr ⟨by simp, hr⟩
  · intro a ha ha'
    obtain rfl : a = 1 := by
      dsimp only at ha'
      omega
    exact le_rfl
  · intro _ a b ha hab hb
    obtain rfl : a = b := by
      dsimp only at hb
      omega
    exact le_rfl

/-- **`BubbleSort`** is a stable sort. -/
lemma bubbleSort_ends (hn : n < R.length) :
    Ends (fun fuel => bubbleSort key fuel R n) (StablySortedIn key 1 n R) := by
  refine Ends.loop
    (I := fun r => r.1.length = R.length ∧ r.2 ≤ n ∧ KeepsGroups key 1 n R.cell r.1.cell
      ∧ Settled key r.2 n r.1.cell)
    (fun r => r.2.toNat) (fun r hr => ?_)
    ⟨rfl, le_rfl, .refl _ _ _ _, fun a b _ _ hlt hle => by dsimp only at hlt; omega⟩
  obtain ⟨R', i⟩ := r
  obtain ⟨hlen, hin, hkeeps, hsettled⟩ := hr
  dsimp only at *
  by_cases hi : i ≥ 2
  · simp only [if_pos hi]
    refine (bubblePass_ends (by omega) hin (by omega) hsettled).bind fun ⟨R'', flag, j⟩ hR'' => ?_
    obtain ⟨hlen', hpos, -, hkeeps', hsettled', hgreatest, hordered⟩ := hR''
    dsimp only at *
    have hkeeps'' := hkeeps.trans hkeeps'
    by_cases hflag : flag = 0
    · simp only [if_pos hflag]
      refine .of_eq (fun _ => rfl)
        (.of_keepsGroups zero_le_one hn (hlen'.trans hlen) hkeeps'' fun a b ha hab hb => ?_)
      rcases le_or_gt b i with hbi | hbi
      · exact hordered hflag a b ha hab hbi
      · exact hsettled' a b ha hab hbi hb
    · simp only [if_neg hflag]
      refine .of_eq (fun _ => rfl)
        ⟨⟨hlen'.trans hlen, by dsimp only; omega, hkeeps'', fun a b ha hab hib hb => ?_⟩, ?_⟩
      · dsimp only at hib
        rcases le_or_gt b i with hbi | hbi
        · obtain rfl : b = i := by omega
          exact hgreatest a ha hab
        · exact hsettled' a b ha hab hbi hb
      · dsimp only
        omega
  · simp only [if_neg hi]
    refine .of_eq (fun _ => rfl)
      (.of_keepsGroups zero_le_one hn hlen hkeeps fun a b ha hab hb => ?_)
    rcases le_or_gt b i with hbi | hbi
    · obtain rfl : a = b := by omega
      exact le_rfl
    · exact hsettled a b ha hab hbi hb

/-! ### The three together -/

/-- **The quadratic sorts**: all three return, with `R[1..n]` in ascending order and no other cell
changed, `InsertSort` and `BubbleSort` with one and the same array, in which the records of one key
are in their order, and `SelectSort` with the same keys, exactly when `n` is not the largest
`int`. -/
theorem quadratic_sorts_iff (hint : IsInt32 n) (hn : n < R.length) :
    (∃ R₁ R₂, Returns (fun fuel => insertSort key fuel R n) R₁
      ∧ Returns (fun fuel => bubbleSort key fuel R n) R₁
      ∧ Returns (fun fuel => selectSort key fuel R n) R₂
      ∧ StablySortedIn key 1 n R R₁ ∧ SortedByKey key 1 n R R₂ ∧ R₂.map key = R₁.map key)
    ↔ n ≠ 2147483647 := by
  constructor
  · rintro ⟨R₁, R₂, hR₁, -⟩ rfl
    exact not_returns insertSort_max hR₁
  · intro hmax
    have hlt : n < 2147483647 := lt_of_le_of_ne hint.2 hmax
    have hinsert : Ends (fun fuel => insertSort key fuel R n) (StablySortedIn key 1 n R) :=
      insertSort_ends hn hlt
    have hbubble : Ends (fun fuel => bubbleSort key fuel R n) (StablySortedIn key 1 n R) :=
      bubbleSort_ends hn
    have hselect : Ends (fun fuel => selectSort key fuel R n) (SortedByKey key 1 n R) :=
      selectSort_ends hn hlt
    obtain ⟨R₁, hR₁, hsorted₁⟩ := hinsert
    obtain ⟨R₃, hR₃, hsorted₃⟩ := hbubble
    obtain ⟨R₂, hR₂, hsorted₂⟩ := hselect
    obtain rfl := hsorted₁.unique zero_le_one hsorted₃
    exact ⟨R₁, R₂, hR₁, hR₃, hR₂, hsorted₁, hsorted₂,
      hsorted₂.map_key_unique zero_le_one hsorted₁.sortedByKey⟩

/-- The theorem at an array of five cells. -/
theorem quadratic_sorts_four :
    (∃ R₁ R₂, Returns (fun fuel => insertSort id fuel [0, 3, 1, 3, 2] 4) R₁
      ∧ Returns (fun fuel => bubbleSort id fuel [0, 3, 1, 3, 2] 4) R₁
      ∧ Returns (fun fuel => selectSort id fuel [0, 3, 1, 3, 2] 4) R₂
      ∧ StablySortedIn id 1 4 [0, 3, 1, 3, 2] R₁ ∧ SortedByKey id 1 4 [0, 3, 1, 3, 2] R₂
      ∧ R₂.map id = R₁.map id)
    ↔ (4 : ℤ) ≠ 2147483647 :=
  quadratic_sorts_iff (by rw [IsInt32]; decide) (by decide)

/-- `InsertSort` does not sort an array of zeros, of the largest size. -/
theorem insertSort_max_fails :
    ¬ ∃ R₁, Returns (fun fuel => insertSort id fuel (List.replicate 2147483648 0) 2147483647) R₁
      ∧ StablySortedIn id 1 2147483647 (List.replicate 2147483648 0) R₁ := by
  rintro ⟨R₁, hR₁, -⟩
  exact not_returns insertSort_max hR₁

end Proofs

end Wgs.Sorting.Quadratic
