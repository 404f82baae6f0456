import Wgs.Foundation.Assignments
import Wgs.Pinduoduo.Input

/-!
`main` of `C/pinduoduo/p3.c`: how many of the sizes `w` can be given to demands `h` that they fit.

The sizes are gone through from the largest one on, and each is given to the last demand in the
sorted array that it fits.  A demand that has got a size is overwritten with `w[m] + 1`, which none
of the sizes fits.

So the array always holds some of the demands at their places, and larger numbers in the others
(`Unmet`).  What a size is given to is then the greatest of the demands left that it fits, and no
assignment of the sizes left is worse off for that (`Foundation.IsLargest.give`).  In the end the
count is that of a largest assignment (`main_counts_largest`).

The arrays have 1024 cells, the first of which the sort needs: a case of more than 1023 numbers
writes behind them.
-/

namespace Wgs.Pinduoduo.Assignment

open Foundation

/-! ### The program -/

/-- `sort` of `C/pinduoduo/p3.c`, the same routine again. -/
def sort : ℕ → Cells ℤ → ℤ → Option (Cells ℤ) := Sorting.shsort

/-- `for (i = n; i > 0; i--)` for the size `w[j]`, from some `i` on. -/
def fitLoop (w : Cells ℤ) (m j : ℤ) : ℕ → Cells ℤ × ℕ × ℤ → Option (Cells ℤ × ℕ) :=
  loop fun _ (h, count, i) => do
    if 0 < i then
      if (← w.load j) ≥ (← h.load i) then
        return .stop (← h.store i (toInt32 ((← w.load m) + 1)), count + 1)
      else return .next (h, count, i - 1)
    else return .stop (h, count)

/-- `for (j = m; j > 0; j--)`, from some `j` on; the count stays below `m`. -/
def sizeLoop (n : ℤ) (w : Cells ℤ) (m : ℤ) :
    ℕ → Cells ℤ × ℕ × ℤ → Option (Cells ℤ × ℕ × ℤ) :=
  whileLoop
    (fun (_, _, j) => return 0 < j)
    (fun fuel (h, count, j) => do
      let (h, count) ← fitLoop w m j fuel (h, count, n)
      return (h, count, j - 1))

/-- What a case leaves to the next one. -/
structure Vars where
  h : Cells ℤ
  w : Cells ℤ
  m : ℤ

/-- One test case: the count printed. -/
def testCase (fuel : ℕ) (v : Vars) (n : ℤ) (input : List ℤ) : Option (ℕ × Vars × List ℤ) := do
  let (h, input, _) ← readLoop n fuel (v.h, input, 1)
  let h ← sort fuel h n
  let m := input.headD v.m
  let (w, input, _) ← readLoop m fuel (v.w, input.tail, 1)
  let w ← sort fuel w m
  let (h, count, _) ← sizeLoop n w m fuel (h, 0, m)
  return (count, ⟨h, w, m⟩, input)

/-- `main`: the number printed for each case. -/
def main : ℕ → Vars → List ℤ → Option (List ℕ)
  | 0, _, _ => none
  | _ + 1, _, [] => some []
  | fuel + 1, v, n :: input => do
      let (out, v, input) ← testCase fuel v n input
      let rest ← main fuel v input
      return out :: rest

/-- The numbers of a test case. -/
structure Case where
  demands : List ℤ
  sizes : List ℤ

/-- The input of these test cases. -/
def tokens (cases : List Case) : List ℤ :=
  cases.flatMap fun c =>
    (c.demands.length : ℤ) :: (c.demands ++ (c.sizes.length : ℤ) :: c.sizes)

lemma tokens_cons (c : Case) (cases : List Case) : tokens (c :: cases) = (c.demands.length : ℤ)
    :: (c.demands ++ (c.sizes.length : ℤ) :: (c.sizes ++ tokens cases)) := by
  simp [tokens]

/-! ### The demands left -/

/-- Of the demands in `s`, those in `I` are left in `h`, and the others are above `top` there. -/
structure Unmet (s : Cells ℤ) (n top : ℤ) (I : Finset ℤ) (h : Cells ℤ) : Prop where
  length_eq : h.length = s.length
  mem_Icc : ∀ i ∈ I, i ∈ Set.Icc 1 n
  cell_eq : ∀ i ∈ I, h.cell i = s.cell i
  lt_cell : ∀ i ∈ Set.Icc 1 n, i ∉ I → top < h.cell i

section Demands

variable {s h w : Cells ℤ} {n m j i top : ℤ} {I : Finset ℤ} {count : ℕ}

lemma Unmet.refl (s : Cells ℤ) (n top : ℤ) : Unmet s n top (Finset.Icc 1 n) s where
  length_eq := rfl
  mem_Icc _ hi := Finset.mem_Icc.mp hi
  cell_eq _ _ := rfl
  lt_cell _ hi hout := absurd (Finset.mem_Icc.mpr hi) hout

/-- A demand is overwritten. -/
lemma Unmet.erase {h' : Cells ℤ} {v : ℤ} (hI : Unmet s n top I h) (hv : top < v)
    (hlen : h'.length = h.length) (hcell : h'.cell = Function.update h.cell i v) :
    Unmet s n top (I.erase i) h' where
  length_eq := hlen.trans hI.length_eq
  mem_Icc i hi := hI.mem_Icc i (Finset.mem_of_mem_erase hi)
  cell_eq := by
    intro k hk
    rw [hcell, Function.update_of_ne (Finset.ne_of_mem_erase hk)]
    exact hI.cell_eq k (Finset.mem_of_mem_erase hk)
  lt_cell := by
    intro k hk hout
    rw [hcell]
    rcases eq_or_ne k i with rfl | hne
    · rwa [Function.update_self]
    · rw [Function.update_of_ne hne]
      exact hI.lt_cell k hk fun hmem => hout (Finset.mem_erase.mpr ⟨hne, hmem⟩)

/-- What becomes of one size: it is given to the greatest demand left that it fits, if there is
one. -/
inductive Fitted (s : Cells ℤ) (n top size : ℤ) (I : Finset ℤ) (count : ℕ) : Cells ℤ × ℕ → Prop
  | none {h : Cells ℤ} : Unmet s n top I h → (∀ i ∈ I, ¬ s.cell i ≤ size) →
      Fitted s n top size I count (h, count)
  | given {h : Cells ℤ} {i : ℤ} : Unmet s n top (I.erase i) h → i ∈ I → s.cell i ≤ size →
      (∀ k ∈ I, s.cell k ≤ size → s.cell k ≤ s.cell i) →
      Fitted s n top size I count (h, count + 1)

/-- **One size** goes through the demands from the last one on. -/
lemma fitLoop_ends (hasc : AscendsOn s.cell 1 n) (hI : Unmet s n (w.cell m) I h) (hn : 0 ≤ n)
    (hlen : n < s.length) (hj : 1 ≤ j) (hjm : j ≤ m) (hm : m < w.length)
    (hle : w.cell j ≤ w.cell m) (hmax : IsInt32 (w.cell m + 1)) :
    Ends (fun fuel => fitLoop w m j fuel (h, count, n))
      (Fitted s n (w.cell m) (w.cell j) I count) := by
  have hlen' := hI.length_eq
  refine .loop (I := fun r : Cells ℤ × ℕ × ℤ => r.1 = h ∧ r.2.1 = count ∧ 0 ≤ r.2.2 ∧ r.2.2 ≤ n
      ∧ ∀ k, r.2.2 < k → k ≤ n → w.cell j < h.cell k) (fun r => r.2.2.toNat) (fun r hr => ?_)
    ⟨rfl, rfl, hn, le_rfl, fun k hk hk' => absurd hk (not_lt.mpr hk')⟩
  obtain ⟨h', c, i⟩ := r
  obtain ⟨rfl, rfl, hi, hin, habove⟩ := hr
  dsimp only at *
  by_cases hpos : 0 < i
  · rw [if_pos hpos]
    refine .load (by omega) (by omega) (.load hi (by omega) ?_)
    by_cases hfit : w.cell j ≥ h'.cell i
    · -- what has been overwritten would not fit
      have hmem : i ∈ I := by
        by_contra hout
        have hlt := hI.lt_cell i ⟨by omega, hin⟩ hout
        omega
      have hcell := hI.cell_eq i hmem
      rw [if_pos hfit]
      refine .load (by omega) hm (.store hi (by omega) fun h'' hlen'' hcell'' => ?_)
      refine .of_eq (fun _ => rfl) (.given (hI.erase ?_ hlen'' hcell'') hmem (by omega) ?_)
      · rw [toInt32_of_isInt32 hmax]
        exact Int.lt_succ _
      · intro k hk hkfit
        have hkmem := hI.mem_Icc k hk
        refine hasc k i hkmem.1 ?_ hin
        by_contra hki
        have hlt := habove k (not_le.mp hki) hkmem.2
        rw [hI.cell_eq k hk] at hlt
        omega
    · rw [if_neg hfit]
      refine .of_eq (fun _ => rfl) ⟨⟨rfl, rfl, by dsimp only; omega, by dsimp only; omega,
        fun k hk hk' => ?_⟩, by dsimp only; omega⟩
      rcases eq_or_ne k i with rfl | hne
      · exact not_le.mp hfit
      · exact habove k (by dsimp only at hk; omega) hk'
  · rw [if_neg hpos]
    refine .of_eq (fun _ => rfl) (.none hI fun k hk => ?_)
    have hkmem := hI.mem_Icc k hk
    have hlt := habove k (by have := hkmem.1; omega) hkmem.2
    rw [hI.cell_eq k hk] at hlt
    exact not_le.mpr hlt

/-! ### The sizes -/

/-- A largest assignment of what is left, in addition to what has been counted, is one of all. -/
structure Assigned (s w : Cells ℤ) (n m j : ℤ) (h : Cells ℤ) (count : ℕ) : Prop where
  nonneg : 0 ≤ j
  le : j ≤ m
  left : ∃ I, Unmet s n (w.cell m) I h ∧ ∀ k, IsLargest w.cell s.cell (Finset.Icc 1 j) I k →
    IsLargest w.cell s.cell (Finset.Icc 1 m) (Finset.Icc 1 n) (count + k)

lemma erase_Icc (j : ℤ) : (Finset.Icc 1 j).erase j = Finset.Icc 1 (j - 1) := by
  ext i
  rw [Finset.mem_erase, Finset.mem_Icc, Finset.mem_Icc]
  omega

/-- **A size more.** -/
lemma Fitted.assigned {r : Cells ℤ × ℕ} (hr : Fitted s n (w.cell m) (w.cell j) I count r)
    (hj : 1 ≤ j) (hjm : j ≤ m) (hI : ∀ k, IsLargest w.cell s.cell (Finset.Icc 1 j) I k →
      IsLargest w.cell s.cell (Finset.Icc 1 m) (Finset.Icc 1 n) (count + k)) :
    Assigned s w n m (j - 1) r.1 r.2 := by
  refine ⟨by omega, by omega, ?_⟩
  cases hr with
  | none hunmet hnone =>
      refine ⟨I, hunmet, fun k hk => hI k ?_⟩
      rw [← erase_Icc] at hk
      exact hk.leave hnone
  | @given _ i hunmet hmem hfits hbest =>
      refine ⟨I.erase i, hunmet, fun k hk => ?_⟩
      rw [← erase_Icc] at hk
      have hgive := hI (k + 1) (hk.give (Finset.mem_Icc.mpr ⟨hj, le_rfl⟩) hmem hfits hbest)
      rwa [add_right_comm, add_assoc]

/-- **The count** is that of a largest assignment. -/
lemma sizeLoop_ends (hasc : AscendsOn s.cell 1 n) (hwasc : AscendsOn w.cell 1 m) (hn : 0 ≤ n)
    (hm : 0 ≤ m) (hlen : n < s.length) (hwlen : m < w.length)
    (hmax : ∀ i ∈ Set.Icc 1 m, IsInt32 (w.cell i + 1)) :
    Ends (fun fuel => sizeLoop n w m fuel (s, 0, m)) fun r =>
      r.1.length = s.length
        ∧ IsLargest w.cell s.cell (Finset.Icc 1 m) (Finset.Icc 1 n) r.2.1 := by
  refine .whileLoop (I := fun r : Cells ℤ × ℕ × ℤ => Assigned s w n m r.2.2 r.1 r.2.1)
    (fun r => r.2.2.toNat) (fun r hr => ?_)
    ⟨hm, le_rfl, Finset.Icc 1 n, .refl s n _, fun k hk => by rwa [Nat.zero_add]⟩
  obtain ⟨h, count, j⟩ := r
  obtain ⟨hj, hjm, I, hunmet, hI⟩ := hr
  dsimp only at *
  by_cases hpos : 0 < j
  · left
    refine ⟨by simpa using hpos, ?_⟩
    have hle : w.cell j ≤ w.cell m := hwasc j m hpos hjm le_rfl
    refine (fitLoop_ends hasc hunmet hn hlen hpos hjm hwlen hle
      (hmax m ⟨by omega, le_rfl⟩)).bind fun r hr => ?_
    exact .of_eq (fun _ => rfl) ⟨hr.assigned hpos hjm hI, by dsimp only; omega⟩
  · right
    obtain rfl : j = 0 := by omega
    refine ⟨by simp, hunmet.length_eq, ?_⟩
    have hnone : Finset.Icc (1 : ℤ) 0 = ∅ := rfl
    rw [hnone] at hI
    exact hI 0 .empty

end Demands

/-! ### The cases -/

/-- The numbers of a case: the arrays have room for them, and the sizes are integers that are still
`int`s when one is added. -/
structure IsCase (c : Case) : Prop where
  demands_lt : c.demands.length < 1024
  sizes_lt : c.sizes.length < 1024
  isInt32 : ∀ i ∈ Set.Icc (1 : ℤ) c.sizes.length, IsInt32 (nth c.sizes i + 1)

/-- The largest number of demands that get a size each. -/
def IsPrinted (c : Case) (out : ℕ) : Prop :=
  IsLargest (nth c.sizes) (nth c.demands) (Finset.Icc (1 : ℤ) c.sizes.length)
    (Finset.Icc (1 : ℤ) c.demands.length) out

/-- The places may be permuted. -/
lemma IsPrinted.of_sortedFrom {c : Case} {out : ℕ} {s w : Cells ℤ} {σ τ : Equiv.Perm ℤ}
    (hs : SortedFrom c.demands σ s) (hw : SortedFrom c.sizes τ w)
    (h : IsLargest w.cell s.cell (Finset.Icc (1 : ℤ) c.sizes.length)
      (Finset.Icc (1 : ℤ) c.demands.length) out) : IsPrinted c out := by
  have hcomp : IsLargest (nth c.sizes ∘ τ) (nth c.demands ∘ σ)
      (Finset.Icc (1 : ℤ) c.sizes.length) (Finset.Icc (1 : ℤ) c.demands.length) out :=
    h.congr (fun j hj => (hw.cell_eq j (Finset.mem_Icc.mp hj)).symm)
      fun i hi => (hs.cell_eq i (Finset.mem_Icc.mp hi)).symm
  refine hcomp.of_comp (fun j => ?_) (fun i => ?_)
  · rw [Finset.mem_Icc, Finset.mem_Icc]
    exact hw.mem_iff j
  · rw [Finset.mem_Icc, Finset.mem_Icc]
    exact hs.mem_iff i

section Cases

variable {c : Case} {v : Vars} {input : List ℤ} {cases : List Case}

lemma testCase_ends (hc : IsCase c) (hh : v.h.length = 1024) (hw : v.w.length = 1024) :
    Ends (fun fuel => testCase fuel v c.demands.length
        (c.demands ++ (c.sizes.length : ℤ) :: (c.sizes ++ input))) fun r =>
      IsPrinted c r.1 ∧ r.2.1.h.length = 1024 ∧ r.2.1.w.length = 1024 ∧ r.2.2 = input := by
  have hdlt := hc.demands_lt
  have hslt := hc.sizes_lt
  refine (readLoop_ends (by omega) (by omega)).bind fun ⟨h₁, input₁, i⟩ ⟨hlen₁, hin₁, hnth₁⟩ => ?_
  dsimp only at hlen₁ hin₁ hnth₁
  subst hin₁
  refine (sort_ends (by omega) (by omega) hnth₁).bind fun h₂ ⟨hlen₂, σ, hσ⟩ => ?_
  refine (readLoop_ends (by omega) (by omega)).bind fun ⟨w₁, input₁, i⟩ ⟨wlen₁, hin₁, wnth₁⟩ => ?_
  dsimp only at wlen₁ hin₁ wnth₁
  subst hin₁
  refine (sort_ends (by omega) (by omega) wnth₁).bind fun w₂ ⟨wlen₂, τ, hτ⟩ => ?_
  have hmax : ∀ i ∈ Set.Icc (1 : ℤ) c.sizes.length, IsInt32 (w₂.cell i + 1) := by
    intro i hi
    rw [hτ.cell_eq i hi]
    exact hc.isInt32 _ ((hτ.mem_iff i).mpr hi)
  refine (sizeLoop_ends hσ.ascends hτ.ascends (by omega) (by omega) (by omega) (by omega)
    hmax).bind fun ⟨h₃, count, j⟩ ⟨hlen₃, hcount⟩ => ?_
  dsimp only at hlen₃ hcount
  exact .of_eq (fun _ => rfl) ⟨.of_sortedFrom hσ hτ hcount, by dsimp only; omega,
    by dsimp only; omega, rfl⟩

lemma main_ends (hcases : ∀ c ∈ cases, IsCase c) (hh : v.h.length = 1024)
    (hw : v.w.length = 1024) :
    Ends (fun fuel => main fuel v (tokens cases)) (List.Forall₂ IsPrinted cases) := by
  induction cases generalizing v with
  | nil => exact .of_succ (.of_eq (fun _ => rfl) .nil)
  | cons c cases ih =>
      obtain ⟨hc, hcases⟩ := List.forall_mem_cons.mp hcases
      rw [tokens_cons]
      refine .of_succ ((testCase_ends hc hh hw).bind
        fun ⟨out, v', input⟩ ⟨hout, hh', hw', hinput⟩ => ?_)
      dsimp only at hout hh' hw' hinput
      subst hinput
      refine (ih hcases hh' hw').bind fun outs houts => ?_
      exact .of_eq (fun _ => rfl) (.cons hout houts)

/-- **The largest assignment**: for every case, the number of its pairs is printed. -/
theorem main_counts_largest (hcases : ∀ c ∈ cases, IsCase c) (hh : v.h.length = 1024)
    (hw : v.w.length = 1024) :
    ∃ outs, Returns (fun fuel => main fuel v (tokens cases)) outs
      ∧ List.Forall₂ IsPrinted cases outs :=
  main_ends hcases hh hw

/-- The theorem at the demands 2 and 3 and the size 2. -/
theorem main_counts_largest_one :
    ∃ outs, Returns (fun fuel => main fuel ⟨List.replicate 1024 0, List.replicate 1024 0, 0⟩
        (tokens [⟨[2, 3], [2]⟩])) outs
      ∧ List.Forall₂ IsPrinted [⟨[2, 3], [2]⟩] outs := by
  refine main_counts_largest (List.forall_mem_singleton.mpr ⟨by simp, by simp, fun i hi => ?_⟩)
    List.length_replicate List.length_replicate
  obtain rfl : i = 1 := le_antisymm hi.2 hi.1
  decide

/-- A case with more demands than there is room for runs into a fault. -/
lemma main_eq_none (hlong : v.h.length ≤ c.demands.length) (hpos : 0 < v.h.length)
    (hmax : v.h.length < 2147483647) (fuel : ℕ) : main fuel v (tokens (c :: cases)) = none := by
  cases fuel with
  | zero => rfl
  | succ fuel =>
      have hread : readLoop c.demands.length fuel
          (v.h, c.demands ++ (c.sizes.length : ℤ) :: (c.sizes ++ tokens cases), 1) = none :=
        readLoop_eq_none hlong hpos hmax fuel
      rw [tokens_cons, main, testCase, hread]
      rfl

/-- **No room**: with 1024 demands, nothing is printed. -/
theorem main_no_room :
    ¬ ∃ outs, Returns (fun fuel => main fuel ⟨List.replicate 1024 0, List.replicate 1024 0, 0⟩
      (tokens [⟨List.replicate 1024 1, [1]⟩])) outs := by
  rintro ⟨outs, houts⟩
  refine not_returns (fun fuel => main_eq_none ?_ ?_ ?_ fuel) houts <;>
    simp only [List.length_replicate, le_refl, Nat.reduceLT]

end Cases

end Wgs.Pinduoduo.Assignment
