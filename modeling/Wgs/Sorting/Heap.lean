import Wgs.Foundation.Cells
import Wgs.Foundation.MachineInt
import Wgs.Foundation.MaxHeap

/-!
`heapSort` of `C/huawei/paixu.c`.

The children of the cell `k` are `2k` and `2k + 1`.  `Sift` keeps the value of its first cell in
`tmp` and moves the hole down the greater children until the value fits (`Sifting`).  The first loop
of `heapSort` makes a heap, from the last parent up; the second one moves the greatest value of the
heap behind it.

`Sift` computes the children of a cell before it compares them with `high`, which overflows from
the cell `2³⁰` on and then reads in front of the array: all arrays get sorted exactly when `n` is
less (`heapSort_sorts_iff`).
-/

namespace Wgs.Sorting

open Foundation

/-! ### The program -/

/-- `if (j < high && R[j] < R[j + 1]) ++j;` -/
def greaterChild (R : Cells ℤ) (high j : ℤ) : Option ℤ := do
  if j < high then
    if (← R.load j) < (← R.load (j + 1)) then return j + 1 else return j
  else return j

/-- The body of the loop of `Sift`, which is left with the array and the hole. -/
def siftStep (high tmp : ℤ) (_ : ℕ) :
    Cells ℤ × ℤ × ℤ → Option (Control (Cells ℤ × ℤ × ℤ) (Cells ℤ × ℤ))
  | (R, i, j) => do
      if j ≤ high then
        let j ← greaterChild R high j
        if tmp < (← R.load j) then
          return .next (← R.store i (← R.load j), j, toInt32 (2 * j))
        else return .stop (R, i)
      else return .stop (R, i)

/-- `Sift`. -/
def sift (fuel : ℕ) (R : Cells ℤ) (low high : ℤ) : Option (Cells ℤ) := do
  let tmp ← R.load low
  let (R, i) ← loop (siftStep high tmp) fuel (R, low, toInt32 (2 * low))
  R.store i tmp

/-- `for (i = n / 2; i >= 1; --i) Sift(R, i, n);`, from some `i` on. -/
def buildLoop (n : ℤ) : ℕ → Cells ℤ × ℤ → Option (Cells ℤ × ℤ) :=
  whileLoop
    (fun (_, i) => return 1 ≤ i)
    (fun fuel (R, i) => return (← sift fuel R i n, i - 1))

/-- `for (i = n; i >= 2; --i) { … }`, from some `i` on. -/
def sortLoop : ℕ → Cells ℤ × ℤ → Option (Cells ℤ × ℤ) :=
  whileLoop
    (fun (_, i) => return 2 ≤ i)
    (fun fuel (R, i) => do
      let tmp ← R.load 1
      let R ← R.store 1 (← R.load i)
      let R ← R.store i tmp
      return (← sift fuel R 1 (i - 1), i - 1))

/-- `heapSort`. -/
def heapSort (fuel : ℕ) (R : Cells ℤ) (n : ℤ) : Option (Cells ℤ) := do
  let (R, _) ← buildLoop n fuel (R, n.tdiv 2)
  let (R, _) ← sortLoop fuel (R, n)
  return R

/-! ### `Sift` -/

/-- The array while the value of the cell `low` sinks, with a hole at `h`. -/
structure Sifting (R₀ : Cells ℤ) (low high : ℤ) (R : Cells ℤ) (h : ℤ) : Prop where
  length_eq : R.length = R₀.length
  low_le : low ≤ h
  le_high : h ≤ high
  rearranges : Rearranges (Set.Icc low high) R₀.cell (Function.update R.cell h (R₀.cell low))
  hole : HoleAt low high R.cell (R₀.cell low) h

section Heaps

variable {R R₀ : Cells ℤ} {low high h i n : ℤ}

lemma greaterChild_ends (hpos : 1 ≤ h) (hh : 2 * h ≤ high) (hhigh : high < R.length) :
    Ends (fun _ => greaterChild R high (2 * h)) fun j => j / 2 = h ∧ j ≤ high
      ∧ ∀ c, c / 2 = h → c ≤ high → R.cell c ≤ R.cell j := by
  have hchild : ∀ c, c / 2 = h → c = 2 * h ∨ c = 2 * h + 1 := fun c hc => by omega
  simp only [greaterChild]
  by_cases hlt : 2 * h < high
  · simp only [if_pos hlt]
    refine Ends.load (by omega) (by omega) (Ends.load (by omega) (by omega) ?_)
    split_ifs with hcmp
    · refine .of_eq (fun _ => rfl) ⟨by omega, by omega, fun c hc hc' => ?_⟩
      rcases hchild c hc with rfl | rfl
      · exact hcmp.le
      · exact le_rfl
    · refine .of_eq (fun _ => rfl) ⟨by omega, by omega, fun c hc hc' => ?_⟩
      rcases hchild c hc with rfl | rfl
      · exact le_rfl
      · exact not_lt.mp hcmp
  · simp only [if_neg hlt]
    refine .of_eq (fun _ => rfl) ⟨by omega, by omega, fun c hc hc' => ?_⟩
    rcases hchild c hc with rfl | rfl
    · exact le_rfl
    · omega

/-- The hole sinks until the value fits. -/
lemma siftLoop_ends (hpos : 1 ≤ low) (hhigh : high < R₀.length) (hmax : high < 1073741824)
    (hR : Sifting R₀ low high R h) :
    Ends (fun fuel => loop (siftStep high (R₀.cell low)) fuel (R, h, 2 * h)) fun r =>
      Sifting R₀ low high r.1 r.2 ∧ ∀ c, c / 2 = r.2 → c ≤ high → r.1.cell c ≤ R₀.cell low := by
  refine Ends.loop (I := fun r => r.2.2 = 2 * r.2.1 ∧ Sifting R₀ low high r.1 r.2.1)
    (fun r => (high - r.2.1).toNat) (fun r hr => ?_) ⟨rfl, hR⟩
  obtain ⟨R, h, j⟩ := r
  obtain ⟨hchild, hlen, hlow, hle, hrearr, hhole⟩ := hr
  dsimp only at *
  obtain rfl := hchild
  simp only [siftStep]
  by_cases hj : 2 * h ≤ high
  · simp only [if_pos hj]
    refine (greaterChild_ends (by omega) hj (by omega)).bind fun j ⟨hjh, hjle, hgreatest⟩ => ?_
    refine Ends.load (by omega) (by omega) ?_
    by_cases htmp : R₀.cell low < R.cell j
    · simp only [if_pos htmp]
      refine Ends.load (by omega) (by omega)
        (Ends.store (by omega) (by omega) fun R' hlen' hR' => ?_)
      have hnext : toInt32 (2 * j) = 2 * j := toInt32_of_isInt32 ⟨by omega, by omega⟩
      refine .of_eq (fun _ => rfl) ⟨⟨hnext, hlen'.trans hlen, ?_, hjle, ?_, ?_⟩, ?_⟩
        <;> dsimp only
      · omega
      · rw [hR']
        exact hrearr.move_hole ⟨hlow, hle⟩ ⟨by omega, hjle⟩ (by omega)
      · rw [hR']
        exact hhole.descend hpos hlow hjh hgreatest hjle htmp
      · omega
    · simp only [if_neg htmp]
      exact .of_eq (fun _ => rfl) ⟨⟨hlen, hlow, hle, hrearr, hhole⟩, fun c hc hc' =>
        (hgreatest c hc hc').trans (not_lt.mp htmp)⟩
  · simp only [if_neg hj]
    exact .of_eq (fun _ => rfl) ⟨⟨hlen, hlow, hle, hrearr, hhole⟩, fun c hc hc' => by
      dsimp only at hc
      omega⟩

/-- **`Sift`** makes a heap from `low` on of one that starts behind it. -/
lemma sift_ends (hpos : 1 ≤ low) (hle : low ≤ high) (hhigh : high < R.length)
    (hmax : high < 1073741824) (hheap : HeapOn (low + 1) high R.cell) :
    Ends (fun fuel => sift fuel R low high) fun R' => R'.length = R.length
      ∧ Rearranges (Set.Icc low high) R.cell R'.cell ∧ HeapOn low high R'.cell := by
  have hstart : Sifting R low high R low := by
    refine ⟨rfl, le_rfl, hle, ?_, .start hpos hheap _⟩
    rw [Function.update_eq_self]
    exact .refl _ _
  have hfirst : toInt32 (2 * low) = 2 * low := toInt32_of_isInt32 ⟨by omega, by omega⟩
  simp only [sift, hfirst]
  refine Ends.load (by omega) (by omega) ?_
  refine (siftLoop_ends hpos hhigh hmax hstart).bind fun ⟨R', i⟩ ⟨hR', hfits⟩ => ?_
  obtain ⟨hlen, hlow, hle', hrearr, hhole⟩ := hR'
  dsimp only at *
  obtain ⟨R'', hstore, hlen', hcell⟩ := Cells.store_spec (s := R') (i := i) (by omega) (by omega)
    (R.cell low)
  refine .of_eq (fun _ => hstore) ⟨hlen'.trans hlen, hcell ▸ hrearr, ?_⟩
  rw [hcell]
  exact hhole.fill hpos hfits

/-! ### The two loops -/

/-- The first loop makes a heap. -/
lemma buildLoop_ends (hn₀ : 0 ≤ n) (hn : n < R.length) (hmax : n < 1073741824) :
    Ends (fun fuel => buildLoop n fuel (R, n.tdiv 2)) fun r => r.1.length = R.length
      ∧ Rearranges (Set.Icc 1 n) R.cell r.1.cell ∧ HeapOn 1 n r.1.cell := by
  have hhalf : n.tdiv 2 = n / 2 := Int.tdiv_eq_ediv_of_nonneg hn₀
  rw [hhalf]
  refine Ends.whileLoop
    (I := fun r => r.1.length = R.length ∧ 0 ≤ r.2 ∧ 2 * r.2 ≤ n
      ∧ Rearranges (Set.Icc 1 n) R.cell r.1.cell ∧ HeapOn (r.2 + 1) n r.1.cell)
    (fun r => r.2.toNat) (fun r hr => ?_) ⟨rfl, ?_, ?_, .refl _ _, .of_lt ?_⟩
  · obtain ⟨R', i⟩ := r
    obtain ⟨hlen, hi₀, hin, hrearr, hheap⟩ := hr
    dsimp only at *
    by_cases hi : 1 ≤ i
    · refine Or.inl ⟨by simp [hi], ?_⟩
      refine (sift_ends hi (by omega) (by omega) hmax hheap).bind
        fun R'' ⟨hlen', hrearr', hheap'⟩ => ?_
      have hmono := hrearr'.mono (Set.Icc_subset_Icc hi (le_refl n))
      refine .of_eq (fun _ => rfl)
        ⟨⟨hlen'.trans hlen, ?_, ?_, hrearr.trans hmono, ?_⟩, ?_⟩ <;> dsimp only
      · omega
      · omega
      · rwa [sub_add_cancel]
      · omega
    · obtain rfl : i = 0 := by omega
      exact Or.inr ⟨by simp, hlen, hrearr, hheap⟩
  all_goals dsimp only; omega

/-- The second loop's array: a heap up to `i`, and behind it greater values in order. -/
structure Draining (R : Cells ℤ) (n : ℤ) (R' : Cells ℤ) (i : ℤ) : Prop where
  length_eq : R'.length = R.length
  one_le : 1 ≤ n → 1 ≤ i
  le : i ≤ n
  rearranges : Rearranges (Set.Icc 1 n) R.cell R'.cell
  heap : HeapOn 1 i R'.cell
  ascends : AscendsOn R'.cell (i + 1) n
  split : ∀ a ∈ Set.Icc 1 i, ∀ b ∈ Set.Icc (i + 1) n, R'.cell a ≤ R'.cell b

/-- The root of the heap and its last cell are exchanged, and the root sinks. -/
lemma Draining.next {R' T U : Cells ℤ} (hR : Draining R n R' i) (hi : 2 ≤ i)
    (hlenT : T.length = R'.length)
    (hT : T.cell = Function.update (Function.update R'.cell 1 (R'.cell i)) i (R'.cell 1))
    (hlenU : U.length = T.length) (hU : Rearranges (Set.Icc 1 (i - 1)) T.cell U.cell)
    (hheap : HeapOn 1 (i - 1) U.cell) : Draining R n U (i - 1) := by
  obtain ⟨hlen, -, hle, hrearr, hheap', hasc, hsplit⟩ := hR
  have hroot : U.cell i = R'.cell 1 := by
    rw [hU.eq_of_notMem fun hmem => by have := hmem.2; omega, hT, Function.update_self]
  have hrest : ∀ b, i < b → U.cell b = R'.cell b := fun b hb => by
    rw [hU.eq_of_notMem fun hmem => by have := hmem.2; omega, hT,
      Function.update_of_ne (by omega), Function.update_of_ne (by omega)]
  -- what is left in the heap was in it before
  have hbelow : ∀ v, (∀ a ∈ Set.Icc 1 i, R'.cell a ≤ v) →
      ∀ a ∈ Set.Icc 1 (i - 1), U.cell a ≤ v := by
    intro v hv
    refine hU.forall_mem (P := fun w => w ≤ v) fun a ha => ?_
    obtain ⟨ha, ha'⟩ := ha
    rw [hT, Function.update_of_ne (by omega)]
    rcases eq_or_ne a 1 with rfl | hne
    · rw [Function.update_self]
      exact hv i ⟨by omega, le_rfl⟩
    · rw [Function.update_of_ne hne]
      exact hv a ⟨ha, by omega⟩
  have hroot' : ∀ a ∈ Set.Icc 1 (i - 1), U.cell a ≤ R'.cell 1 :=
    hbelow _ fun a ha => hheap'.le_root ha.1 ha.2
  refine ⟨hlenU.trans (hlenT.trans hlen), fun _ => by omega, by omega, ?_, hheap, ?_, ?_⟩
  · have hswap : Rearranges (Set.Icc 1 n) R'.cell T.cell := by
      have hself : Rearranges (Set.Icc 1 n) R'.cell (Function.update R'.cell 1 (R'.cell 1)) := by
        rw [Function.update_eq_self]
        exact .refl _ _
      rw [hT]
      exact hself.move_hole ⟨le_rfl, by omega⟩ ⟨by omega, hle⟩ (by omega)
    exact (hrearr.trans hswap).trans (hU.mono (Set.Icc_subset_Icc le_rfl (by omega)))
  · rw [sub_add_cancel]
    refine AscendsOn.join (m := i) (.of_lt (by omega)) (hasc.congr fun b hb => ?_) (fun k hk => ?_)
      fun b hb => ?_
    · exact hrest b (by have := hb.1; omega)
    · have hk₁ := hk.1
      have hk₂ := hk.2
      omega
    · rw [hroot, hrest b (by have := hb.1; omega)]
      exact hsplit 1 ⟨le_rfl, by omega⟩ b hb
  · intro a ha b hb
    rw [sub_add_cancel] at hb
    rcases hb.1.lt_or_eq with hlt | rfl
    · rw [hrest b hlt]
      exact hbelow _ (fun a ha => hsplit a ha b ⟨hlt, hb.2⟩) a ha
    · rw [hroot]
      exact hroot' a ha

/-- The second loop sorts. -/
lemma sortLoop_ends (hn₀ : 0 ≤ n) (hn : n < R.length) (hmax : n < 1073741824)
    (hheap : HeapOn 1 n R.cell) :
    Ends (fun fuel => sortLoop fuel (R, n)) fun r => r.1.length = R.length
      ∧ Rearranges (Set.Icc 1 n) R.cell r.1.cell ∧ AscendsOn r.1.cell 1 n := by
  refine Ends.whileLoop (I := fun r => Draining R n r.1 r.2) (fun r => r.2.toNat) (fun r hr => ?_)
    ⟨rfl, id, le_rfl, .refl _ _, hheap, .of_lt (by dsimp only; omega), fun a _ b hb => ?_⟩
  · obtain ⟨R', i⟩ := r
    have hlen := hr.length_eq
    have hle := hr.le
    dsimp only at *
    by_cases hi : 2 ≤ i
    · refine Or.inl ⟨by simp [hi], Ends.load (by omega) (by omega) (Ends.load (by omega) (by omega)
        (Ends.store (by omega) (by omega) fun S hlenS hS => Ends.store (by omega) (by omega)
          fun T hlenT hT => ?_))⟩
      rw [hS] at hT
      have hheapT : HeapOn (1 + 1) (i - 1) T.cell := by
        refine hr.heap.congr (by omega) (by omega) (by omega) fun k hk hk' => ?_
        rw [hT, Function.update_of_ne (by omega), Function.update_of_ne (by omega)]
      refine (sift_ends le_rfl (by omega) (by omega) (by omega) hheapT).bind
        fun U ⟨hlenU, hU, hheapU⟩ => ?_
      exact .of_eq (fun _ => rfl)
        ⟨hr.next hi (hlenT.trans hlenS) hT hlenU hU hheapU, by dsimp only; omega⟩
    · refine Or.inr ⟨by simp [hi], hr.length_eq, hr.rearranges, ?_⟩
      have hone := hr.one_le
      rcases hn₀.lt_or_eq with hpos | rfl
      · obtain rfl : i = 1 := by omega
        exact AscendsOn.join (m := 1) (.of_lt (by omega)) hr.ascends
          (fun k hk => by have := hk.1; have := hk.2; omega)
          fun b hb => hr.split 1 ⟨le_rfl, le_rfl⟩ b hb
      · exact .of_lt zero_lt_one
  · have hb₁ := hb.1
    have hb₂ := hb.2
    dsimp only at hb₁
    omega

lemma heapSort_ends (hn₀ : 0 ≤ n) (hn : n < R.length) (hmax : n < 1073741824) :
    Ends (fun fuel => heapSort fuel R n) (SortedIn ∅ 1 n R) := by
  refine (buildLoop_ends hn₀ hn hmax).bind fun ⟨R', i⟩ ⟨hlen, hrearr, hheap⟩ => ?_
  refine (sortLoop_ends hn₀ (by omega) hmax hheap).bind
    fun ⟨R'', i'⟩ ⟨hlen', hrearr', hasc⟩ => ?_
  exact .of_eq (fun _ => rfl) (.of_rearranges zero_le_one hn (hlen'.trans hlen) (fun k _ => rfl)
    (fun k hk => absurd hk (Set.notMem_empty k)) (hrearr.trans hrearr') hasc)

/-! ### Large arrays -/

/-- The array `0, 1, …, n`. -/
def ascendingArray (n : ℤ) : Cells ℤ := (List.range (n + 1).toNat).map Nat.cast

lemma length_ascendingArray (hn₀ : 0 ≤ n) : ((ascendingArray n).length : ℤ) = n + 1 := by
  rw [ascendingArray, List.length_map, List.length_range]
  omega

lemma load_ascendingArray (hi₀ : 0 ≤ i) (hi : i ≤ n) : (ascendingArray n).load i = some i := by
  have hlt : i.toNat < (n + 1).toNat := by omega
  rw [Cells.load, if_neg (by omega), ascendingArray, List.getElem?_map,
    List.getElem?_range hlt, Option.map_some, Int.toNat_of_nonneg hi₀]

/-- A child in front of the array. -/
lemma siftStep_neg {tmp j : ℤ} (hhigh : 0 ≤ high) (hj : j < 0) (fuel : ℕ) :
    siftStep high tmp fuel (R, i, j) = none := by
  have hload : R.load j = none := Cells.load_eq_none (by omega)
  rw [siftStep, if_pos (by omega), greaterChild, if_pos (by omega), hload]
  rfl

/-- The last parent of `0, 1, …, n` sinks to the cell `n`, whose children overflow. -/
lemma sift_ascendingArray (hn : 1073741824 ≤ n) (hint : IsInt32 n) (fuel : ℕ) :
    sift fuel (ascendingArray n) (n / 2) n = none := by
  obtain ⟨-, hmax⟩ := hint
  have hlen := length_ascendingArray (n := n) (by omega)
  have hfirst : toInt32 (2 * (n / 2)) = 2 * (n / 2) := toInt32_of_isInt32 ⟨by omega, by omega⟩
  have hlast : toInt32 (2 * n) < 0 := by
    rw [toInt32]
    omega
  have hloop : loop (siftStep n (n / 2)) fuel (ascendingArray n, n / 2, 2 * (n / 2)) = none := by
    refine loop_eq_none (I := fun r => r = (ascendingArray n, n / 2, 2 * (n / 2)) ∨ r.2.2 < 0)
      (fun fuel r hr c hc => ?_) (Or.inl rfl) fuel
    rcases hr with rfl | hneg
    · have hgreater : greaterChild (ascendingArray n) n (2 * (n / 2)) = some n := by
        rw [greaterChild]
        split_ifs with hlt
        · rw [load_ascendingArray (by omega) (by omega), load_ascendingArray (by omega) (by omega)]
          have heq : 2 * (n / 2) + 1 = n := by omega
          simp only [Option.bind_eq_bind, Option.bind_some, heq, if_pos hlt]
          rfl
        · have heq : 2 * (n / 2) = n := by omega
          rw [heq]
          rfl
      obtain ⟨R', hR', -⟩ := Cells.store_spec (s := ascendingArray n) (i := n / 2) (by omega)
        (by omega) n
      rw [siftStep, if_pos (by omega), hgreater] at hc
      simp only [Option.bind_eq_bind, Option.bind_some, load_ascendingArray (show 0 ≤ n by omega)
        le_rfl, if_pos (show n / 2 < n by omega), hR'] at hc
      obtain rfl := Option.some_inj.mp hc
      exact Or.inr hlast
    · obtain ⟨R', i', j'⟩ := r
      rw [siftStep_neg (by omega) hneg] at hc
      cases hc
  rw [sift, load_ascendingArray (by omega) (by omega), hfirst]
  simp only [Option.bind_eq_bind, Option.bind_some, hloop, Option.bind_none]

/-- `0, 1, …, n` is not sorted, if it is that long. -/
lemma heapSort_ascendingArray (hn : 1073741824 ≤ n) (hint : IsInt32 n) (fuel : ℕ) :
    heapSort fuel (ascendingArray n) n = none := by
  have hhalf : n.tdiv 2 = n / 2 := Int.tdiv_eq_ediv_of_nonneg (by omega)
  have hbuild : buildLoop n fuel (ascendingArray n, n / 2) = none := by
    refine whileLoop_eq_none (I := fun r => r = (ascendingArray n, n / 2)) (fun r hr => ?_)
      (fun fuel r r' hr hr' => ?_) rfl fuel
    · subst hr
      have hone : 1 ≤ n / 2 := by omega
      simp [hone]
    · subst hr
      simp only [sift_ascendingArray hn hint, Option.bind_eq_bind, Option.bind_none] at hr'
      cases hr'
  rw [heapSort, hhalf, hbuild]
  rfl

/-- **Heap sort**: for every array with cells up to `n`, `heapSort` returns with `R[1..n]` in
ascending order and nothing else changed, exactly when `n` is less than `2³⁰`. -/
theorem heapSort_sorts_iff (hn₀ : 0 ≤ n) (hint : IsInt32 n) :
    (∀ R : Cells ℤ, n < R.length →
      ∃ R', Returns (fun fuel => heapSort fuel R n) R' ∧ SortedIn ∅ 1 n R R')
    ↔ n < 1073741824 := by
  constructor
  · intro h
    by_contra hn
    have hlen := length_ascendingArray hn₀
    obtain ⟨R', hR', -⟩ := h (ascendingArray n) (by omega)
    exact not_returns (heapSort_ascendingArray (by omega) hint) hR'
  · intro hmax R hn
    exact heapSort_ends hn₀ hn hmax

/-- The theorem for arrays of five cells. -/
theorem heapSort_sorts_four :
    (∀ R : Cells ℤ, 4 < (R.length : ℤ) →
      ∃ R', Returns (fun fuel => heapSort fuel R 4) R' ∧ SortedIn ∅ 1 4 R R')
    ↔ (4 : ℤ) < 1073741824 :=
  heapSort_sorts_iff (by decide) (by rw [IsInt32]; decide)

/-- An array of `2³⁰ + 1` ascending values is not sorted. -/
theorem heapSort_ascending_fails :
    ¬ ∃ R', Returns (fun fuel => heapSort fuel (ascendingArray 1073741824) 1073741824) R'
      ∧ SortedIn ∅ 1 1073741824 (ascendingArray 1073741824) R' := by
  rintro ⟨R', hR', -⟩
  exact not_returns (heapSort_ascendingArray le_rfl (by rw [IsInt32]; decide)) hR'

end Heaps

end Wgs.Sorting
