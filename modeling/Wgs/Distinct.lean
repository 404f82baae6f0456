import Mathlib.Data.List.Sort
import Mathlib.Order.Bounds.Basic
import Wgs.Foundation.Cells

/-!
`C/huawei/2-2.c` and `C/huawei/2.c`: the distinct numbers of a test case, in ascending order.

Both programs sort the numbers of a case at the front of an array, and print each number that is not
the same as the next one in the array.  Behind the last number of the case the array holds what an
earlier and longer case has left there, or what it was made with; if that is the largest number of
the case, it is not printed (`isDistinct_lastOfRuns_iff`).

`2-2.c` sorts by exchanges, in one array for all cases.  `2.c` inserts the numbers into an array of
each case, which is not initialised.  For both, the array is given for every case as it is before
it: `printed` is what a program with such arrays prints (`main_prints_distinct_iff`).
-/

namespace Wgs.Distinct

open Foundation

/-! ### The programs -/

/-- `for (i = 0; i < n; i++) if (s[i] != s[i+1]) printf("%d\n", s[i]);`, from some `i` on, behind
the lines printed before. -/
def printLoop (s : Cells ℤ) (n : ℤ) : ℕ → List ℤ × ℤ → Option (List ℤ × ℤ) :=
  whileLoop
    (fun (_, i) => return i < n)
    (fun _ (lines, i) => do
      if (← s.load i) ≠ (← s.load (i + 1)) then return (lines ++ [← s.load i], i + 1)
      else return (lines, i + 1))

namespace Exchanging

/-- `for (t = 0; t < n; t++) scanf("%d", &s[t]);`, from some `t` on; at the end of the input
`scanf` leaves the cell as it is. -/
def readLoop (n : ℤ) : ℕ → Cells ℤ × List ℤ × ℤ → Option (Cells ℤ × List ℤ × ℤ) :=
  whileLoop
    (fun (_, _, t) => return t < n)
    (fun _ (s, input, t) => do
      match input with
      | [] => return (s, [], t + 1)
      | x :: input => return (← s.store t x, input, t + 1))

/-- `for (j = i+1; j < n; j++)`, from some `j` on. -/
def exchangePass (n i : ℤ) : ℕ → Cells ℤ × ℤ → Option (Cells ℤ × ℤ) :=
  whileLoop
    (fun (_, j) => return j < n)
    (fun _ (s, j) => do
      if (← s.load i) > (← s.load j) then
        let k ← s.load i
        let s ← s.store i (← s.load j)
        let s ← s.store j k
        return (s, j + 1)
      else return (s, j + 1))

/-- `for (i = 0; i < n-1; i++)`, from some `i` on. -/
def exchangeLoop (n : ℤ) : ℕ → Cells ℤ × ℤ → Option (Cells ℤ × ℤ) :=
  whileLoop
    (fun (_, i) => return i < n - 1)
    (fun fuel (s, i) => do
      let (s, _) ← exchangePass n i fuel (s, i + 1)
      return (s, i + 1))

/-- One test case of `2-2.c`, with the array that the one before has left: the lines printed. -/
def testCase (fuel : ℕ) (s : Cells ℤ) (n : ℤ) (input : List ℤ) :
    Option (List ℤ × Cells ℤ × List ℤ) := do
  let (s, input, _) ← readLoop n fuel (s, input, 0)
  let (s, _) ← exchangeLoop n fuel (s, 0)
  let (lines, _) ← printLoop s n fuel ([], 0)
  return (lines, s, input)

/-- `main` of `2-2.c`: the lines printed for each case. -/
def main : ℕ → Cells ℤ → List ℤ → Option (List (List ℤ))
  | 0, _, _ => none
  | _ + 1, _, [] => some []
  | fuel + 1, s, n :: input => do
      let (lines, s, input) ← testCase fuel s n input
      let rest ← main fuel s input
      return lines :: rest

end Exchanging

namespace Inserting

/-- `for (j = 0; j < i; j++)`, from some `j` on. -/
def insertPass (i : ℤ) : ℕ → Cells ℤ × Cells ℤ × ℤ → Option (Cells ℤ × Cells ℤ × ℤ) :=
  whileLoop
    (fun (_, _, j) => return j < i)
    (fun _ (b, data, j) => do
      if (← b.load i) < (← data.load j) then
        let tmp ← b.load i
        let b ← b.store i (← data.load j)
        let data ← data.store j tmp
        let data ← data.store i (← b.load i)
        return (b, data, j + 1)
      else
        let data ← data.store i (← b.load i)
        return (b, data, j + 1))

/-- `for (i = 1; i < N; i++)`, from some `i` on. -/
def insertLoop (n : ℤ) : ℕ → Cells ℤ × Cells ℤ × ℤ → Option (Cells ℤ × Cells ℤ × ℤ) :=
  whileLoop
    (fun (_, _, i) => return i < n)
    (fun fuel (b, data, i) => do
      let (b, data, _) ← insertPass i fuel (b, data, 0)
      return (b, data, i + 1))

/-- `for (i = 1; i < N; i++) if (scanf("%d", &b[i]) == EOF) return 0;`, from some `i` on; there is
nothing in the result when the program returns. -/
def readLoop (n : ℤ) : ℕ → Cells ℤ × List ℤ × ℤ → Option (Option (Cells ℤ × List ℤ)) :=
  loop fun _ (b, input, i) => do
    if i < n then
      match input with
      | [] => return .stop none
      | x :: input => return .next (← b.store i x, input, i + 1)
    else return .stop (some (b, input))

/-- What `2.c` does when it has read a test case, with `data` as it comes: the lines printed. -/
def testCase (fuel : ℕ) (b data : Cells ℤ) (n : ℤ) : Option (List ℤ × Cells ℤ) := do
  let data ← data.store 0 (← b.load 0)
  let (b, data, _) ← insertLoop n fuel (b, data, 1)
  let (lines, _) ← printLoop data n fuel ([], 0)
  return (lines, b)

/-- `main` of `2.c`: the lines printed for each case.  `junk k` is what `data` holds when the case
number `k` begins. -/
def main (junk : ℕ → Cells ℤ) : ℕ → ℕ → Cells ℤ → List ℤ → Option (List (List ℤ))
  | 0, _, _, _ => none
  | _ + 1, _, _, [] => some []
  | _ + 1, _, _, [_] => some []
  | fuel + 1, k, b, n :: x :: input => do
      let b ← b.store 0 x
      match ← readLoop n fuel (b, input, 1) with
      | none => return []
      | some (b, input) =>
          let (lines, b) ← testCase fuel b (junk k) n
          let rest ← main junk fuel (k + 1) b input
          return lines :: rest

end Inserting

/-- The input of these test cases. -/
def tokens (cases : List (List ℤ)) : List ℤ := cases.flatMap fun xs => xs.length :: xs

/-! ### What is printed -/

/-- The distinct numbers of a list, in ascending order. -/
def IsDistinct (xs lines : List ℤ) : Prop := lines.Pairwise (· < ·) ∧ ∀ x, x ∈ lines ↔ x ∈ xs

/-- The numbers that are not the same as the next one, with `v` behind the last. -/
def lastOfRuns (v : ℤ) : List ℤ → List ℤ
  | [] => []
  | x :: xs => if x ≠ xs.headD v then x :: lastOfRuns v xs else lastOfRuns v xs

/-- The array that a case leaves. -/
def left (s : Cells ℤ) (xs : List ℤ) : Cells ℤ := xs.insertionSort (· ≤ ·) ++ s.drop xs.length

/-- What is printed for each case, where `s k` is the array before the case number `k`. -/
def printed (s : ℕ → Cells ℤ) : List (List ℤ) → List (List ℤ)
  | [] => []
  | xs :: cases =>
      lastOfRuns ((s 0).cell xs.length) (xs.insertionSort (· ≤ ·))
        :: printed (fun k => s (k + 1)) cases

/-- Behind no case is there the largest number of the case. -/
def NothingBehind (s : ℕ → Cells ℤ) (cases : List (List ℤ)) : Prop :=
  ∀ k xs, cases[k]? = some xs → ¬ IsGreatest {x | x ∈ xs} ((s k).cell xs.length)

section Lists

variable {v x y : ℤ} {xs ys lines lines' : List ℤ}

lemma IsDistinct.unique (h : IsDistinct xs lines) (h' : IsDistinct xs lines') : lines = lines' := by
  have hnodup : lines.Nodup := h.1.imp ne_of_lt
  have hnodup' : lines'.Nodup := h'.1.imp ne_of_lt
  have hperm : lines.Perm lines' :=
    (List.perm_ext_iff_of_nodup hnodup hnodup').mpr fun x => (h.2 x).trans (h'.2 x).symm
  exact hperm.eq_of_pairwise (fun _ _ _ _ hxy hyx => absurd hxy hyx.not_gt) h.1 h'.1

/-- In ascending order, each number is printed but for the largest one, where that is behind it. -/
lemma mem_lastOfRuns (hxs : xs.Pairwise (· ≤ ·)) :
    y ∈ lastOfRuns v xs ↔ y ∈ xs ∧ (y = v → ∃ x ∈ xs, v < x) := by
  induction xs with
  | nil => simp [lastOfRuns]
  | cons x xs ih =>
      obtain ⟨hx, hxs⟩ := List.pairwise_cons.mp hxs
      rw [lastOfRuns]
      cases xs with
      | nil => grind [lastOfRuns]
      | cons x' xs =>
          have hx' : ∀ z ∈ x' :: xs, x' ≤ z :=
            List.forall_mem_cons.mpr ⟨le_rfl, (List.pairwise_cons.mp hxs).1⟩
          have hle : x ≤ x' := hx x' List.mem_cons_self
          rw [List.headD_cons]
          split_ifs with hne
          · rw [List.mem_cons, ih hxs]
            grind
          · rw [ih hxs]
            grind

lemma pairwise_lastOfRuns (hxs : xs.Pairwise (· ≤ ·)) : (lastOfRuns v xs).Pairwise (· < ·) := by
  induction xs with
  | nil => exact .nil
  | cons x xs ih =>
      obtain ⟨hx, hxs⟩ := List.pairwise_cons.mp hxs
      rw [lastOfRuns]
      split_ifs with hne
      · refine List.pairwise_cons.mpr ⟨fun y hy => ?_, ih hxs⟩
        have hy' : y ∈ xs := ((mem_lastOfRuns hxs).mp hy).1
        cases xs with
        | nil => cases hy'
        | cons x' xs =>
            have hx' : x' ≤ y := by
              rcases List.mem_cons.mp hy' with rfl | hy'
              · exact le_rfl
              · exact (List.pairwise_cons.mp hxs).1 y hy'
            exact (lt_of_le_of_ne (hx x' List.mem_cons_self) hne).trans_le hx'
      · exact ih hxs

/-- **What is printed is right** unless the largest number is behind the numbers. -/
lemma isDistinct_lastOfRuns_iff (hxs : xs.Pairwise (· ≤ ·)) (hperm : xs.Perm ys) :
    IsDistinct ys (lastOfRuns v xs) ↔ ¬ IsGreatest {x | x ∈ ys} v := by
  have hmem : ∀ x, x ∈ ys ↔ x ∈ xs := fun x => hperm.mem_iff.symm
  constructor
  · rintro ⟨-, hall⟩ ⟨hv, hmax⟩
    obtain ⟨-, hbelow⟩ := (mem_lastOfRuns hxs).mp ((hall v).mpr hv)
    obtain ⟨x, hx, hlt⟩ := hbelow rfl
    exact (hmax ((hmem x).mpr hx)).not_gt hlt
  · intro hnot
    refine ⟨pairwise_lastOfRuns hxs, fun y => ?_⟩
    rw [mem_lastOfRuns hxs, hmem]
    refine ⟨fun h => h.1, fun hy => ⟨hy, ?_⟩⟩
    rintro rfl
    by_contra hlast
    refine hnot ⟨(hmem y).mpr hy, fun x hx => not_lt.mp fun hlt => hlast ?_⟩
    exact ⟨x, (hmem x).mp hx, hlt⟩

lemma pairwise_insertionSort : (xs.insertionSort (· ≤ ·)).Pairwise (· ≤ ·) :=
  List.pairwise_insertionSort _ _

end Lists

/-- Over all cases. -/
lemma printed_isDistinct_iff {s : ℕ → Cells ℤ} {cases : List (List ℤ)} :
    List.Forall₂ IsDistinct cases (printed s cases) ↔ NothingBehind s cases := by
  induction cases generalizing s with
  | nil =>
      refine ⟨fun _ k xs hk => ?_, fun _ => .nil⟩
      cases hk
  | cons xs cases ih =>
      rw [printed, List.forall₂_cons, ih,
        isDistinct_lastOfRuns_iff pairwise_insertionSort (List.perm_insertionSort _ _)]
      constructor
      · rintro ⟨hfirst, hrest⟩ k ys hk
        cases k with
        | zero =>
            obtain rfl := Option.some_inj.mp hk
            exact hfirst
        | succ k => exact hrest k ys hk
      · intro h
        exact ⟨h 0 xs rfl, fun k ys hk => h (k + 1) ys hk⟩

/-! ### The loops -/

section Fill

variable {xs : List ℤ} {s t : Cells ℤ}

/-- What is in front of the array is the list. -/
lemma segment_fill : Cells.segment (Cells.fill xs s xs.length) 0 (xs.length - 1) = xs := by
  rw [Cells.segment, Cells.fill]
  simp

/-- The case, sorted, is what it leaves. -/
lemma eq_left_of_sortedIn (hxs : 1 ≤ xs.length)
    (h : SortedIn ∅ 0 (xs.length - 1) (Cells.fill xs s xs.length) t) : t = left s xs := by
  have hsorted : t.segment 0 (xs.length - 1) = xs.insertionSort (· ≤ ·) := by
    refine List.Perm.eq_of_pairwise (fun _ _ _ _ => le_antisymm) h.ascending pairwise_insertionSort
      (h.perm.trans ?_)
    rw [segment_fill]
    exact (List.perm_insertionSort _ _).symm
  have htake : t.take xs.length = xs.insertionSort (· ≤ ·) := by
    rw [← hsorted, Cells.segment]
    simp
  have hdrop : t.drop xs.length = s.drop xs.length := by
    refine List.ext_getElem? fun m => ?_
    have hframe := h.frame (xs.length + m : ℕ) (by simp) (by simp)
    rw [Cells.load, Cells.load, if_neg (by omega), if_neg (by omega), Int.toNat_natCast,
      Cells.fill] at hframe
    rw [List.getElem?_drop, List.getElem?_drop, hframe, List.getElem?_append_right
      (by rw [List.length_take]; omega), List.getElem?_drop, List.length_take]
    congr 1
    omega
  rw [left, ← htake, ← hdrop, List.take_append_drop]

end Fill

section Loops

variable {s : Cells ℤ} {n i : ℤ}

/-- What is printed, from some place on. -/
lemma printLoop_ends (lines : List ℤ) (hi : 0 ≤ i) (hin : i ≤ n) (hn : n < s.length) :
    Ends (fun fuel => printLoop s n fuel (lines, i)) fun r =>
      r.1 = lines ++ lastOfRuns (s.cell n) (s.segment i (n - 1)) := by
  refine Ends.whileLoop
    (I := fun r : List ℤ × ℤ => i ≤ r.2 ∧ r.2 ≤ n
      ∧ r.1 ++ lastOfRuns (s.cell n) (s.segment r.2 (n - 1))
        = lines ++ lastOfRuns (s.cell n) (s.segment i (n - 1)))
    (fun r => (n - r.2).toNat) (fun r hr => ?_) ⟨le_rfl, hin, rfl⟩
  obtain ⟨lines', k⟩ := r
  obtain ⟨hik, hkn, hlines⟩ := hr
  dsimp only at *
  rcases hkn.lt_or_eq with hlt | rfl
  · have hload := Cells.load_eq (s := s) (i := k) (by omega) (by omega)
    have hload' := Cells.load_eq (s := s) (i := k + 1) (by omega) (by omega)
    have hcons : s.segment k (n - 1) = s.cell k :: s.segment (k + 1) (n - 1) :=
      Cells.segment_cons (by omega) (by omega) (by omega)
    have hnext : (s.segment (k + 1) (n - 1)).headD (s.cell n) = s.cell (k + 1) := by
      rcases (show k + 1 ≤ n from hlt).lt_or_eq with hlt' | heq
      · rw [Cells.segment_cons (by omega) (by omega) (by omega), List.headD_cons]
      · rw [heq, Cells.segment_of_lt (by omega), List.headD_nil]
    rw [hcons, lastOfRuns, hnext] at hlines
    refine Or.inl ⟨by simp [hlt], ?_⟩
    by_cases hne : s.cell k ≠ s.cell (k + 1)
    · rw [if_pos hne] at hlines
      refine .of_eq (r := (lines' ++ [s.cell k], k + 1)) (fun _ => by simp [hload, hload', hne])
        ⟨⟨by dsimp only; omega, hlt, ?_⟩, by dsimp only; omega⟩
      rw [List.append_assoc, List.singleton_append]
      exact hlines
    · rw [if_neg hne] at hlines
      refine .of_eq (r := (lines', k + 1)) (fun _ => ?_)
        ⟨⟨by dsimp only; omega, hlt, hlines⟩, by dsimp only; omega⟩
      simp [hload, hload', not_not.mp hne]
  · rw [Cells.segment_of_lt (by omega), lastOfRuns, List.append_nil] at hlines
    exact Or.inr ⟨by simp, hlines⟩

end Loops

namespace Exchanging

variable {xs input : List ℤ} {s t t' : Cells ℤ} {n i j : ℤ}

/-- The numbers of the case are read. -/
lemma readLoop_ends (input : List ℤ) (hlen : xs.length ≤ s.length) :
    Ends (fun fuel => readLoop xs.length fuel (s, xs ++ input, 0))
      (· = (Cells.fill xs s xs.length, input, (xs.length : ℤ))) := by
  refine (Ends.whileLoop_numbered (n := xs.length)
    (fun t => (Cells.fill xs s t, xs.drop t ++ input, (t : ℤ))) (fun t ht => ?_) (fun t ht => ?_)
    (by simp) (Nat.zero_le _)).mono fun r hr => ?_
  · simpa using ht
  · refine .of_eq (fun _ => ?_) rfl
    rw [List.drop_eq_getElem_cons ht, List.cons_append]
    simp [Cells.store_fill ht hlen]
  · rw [hr, List.drop_length, List.nil_append]

/-- The array while the place `i` gets its value: this is the least of those from there to `j`. -/
structure Passing (s : Cells ℤ) (n i : ℤ) (t : Cells ℤ) (j : ℤ) : Prop where
  length_eq : t.length = s.length
  rearranges : Rearranges (Set.Icc i (n - 1)) s.cell t.cell
  lt : i < j
  le : j ≤ n
  least : ∀ k, i ≤ k → k < j → t.cell i ≤ t.cell k

/-- The values at `i` and `j` are exchanged. -/
lemma Passing.exchange (h : Passing s n i t j) (hj : j < n) (hgt : t.cell j < t.cell i)
    (hlen : t'.length = t.length) (ht' : t'.cell = t.cell ∘ Equiv.swap i j) :
    Passing s n i t' (j + 1) where
  length_eq := hlen.trans h.length_eq
  rearranges := by
    have hlt := h.lt
    rw [ht']
    exact h.rearranges.trans (.swap _ ⟨le_rfl, by omega⟩ ⟨hlt.le, by omega⟩)
  lt := h.lt.trans (lt_add_one j)
  le := hj
  least := by
    intro k hk hkj
    rw [ht', Function.comp_apply, Function.comp_apply, Equiv.swap_apply_left]
    rcases eq_or_ne k i with rfl | hki
    · rw [Equiv.swap_apply_left]
    · rcases eq_or_ne k j with rfl | hne
      · rw [Equiv.swap_apply_right]
        exact hgt.le
      · rw [Equiv.swap_apply_of_ne_of_ne hki hne]
        exact hgt.le.trans (h.least k hk (by omega))

/-- The values are left as they are. -/
lemma Passing.skip (h : Passing s n i t j) (hj : j < n) (hle : t.cell i ≤ t.cell j) :
    Passing s n i t (j + 1) where
  length_eq := h.length_eq
  rearranges := h.rearranges
  lt := h.lt.trans (lt_add_one j)
  le := hj
  least := by
    intro k hk hkj
    rcases eq_or_ne k j with rfl | hne
    · exact hle
    · exact h.least k hk (by omega)

lemma exchangePass_ends (hi : 0 ≤ i) (hin : i < n - 1) (hn : n ≤ s.length) :
    Ends (fun fuel => exchangePass n i fuel (s, i + 1)) fun r => Passing s n i r.1 n := by
  refine Ends.whileLoop (I := fun r : Cells ℤ × ℤ => Passing s n i r.1 r.2)
    (fun r => (n - r.2).toNat) (fun r hr => ?_)
    ⟨rfl, .refl _ _, lt_add_one i, by dsimp only; omega, fun k hk hki => ?_⟩
  · obtain ⟨t, j⟩ := r
    dsimp only at hr ⊢
    have hlen := hr.length_eq
    have hlt := hr.lt
    rcases hr.le.lt_or_eq with hj | rfl
    · refine Or.inl ⟨by simp [hj], ?_⟩
      have hloadi := Cells.load_eq (s := t) (i := i) hi (by omega)
      have hloadj := Cells.load_eq (s := t) (i := j) (by omega) (by omega)
      by_cases hgt : t.cell j < t.cell i
      · simp only [hloadi, hloadj, Option.bind_eq_bind, Option.bind_some, gt_iff_lt, hgt, if_true]
        refine Ends.store hi (by omega) fun t₁ hlen₁ hcell₁ => ?_
        refine Ends.store (by omega) (by omega) fun t₂ hlen₂ hcell₂ => ?_
        rw [hcell₁, update_eq_swap] at hcell₂
        exact .of_eq (fun _ => rfl)
          ⟨hr.exchange hj hgt (hlen₂.trans hlen₁) hcell₂, by dsimp only; omega⟩
      · refine .of_eq (r := (t, j + 1)) (fun _ => by simp [hloadi, hloadj, hgt])
          ⟨hr.skip hj (not_lt.mp hgt), by dsimp only; omega⟩
    · exact Or.inr ⟨by simp, hr⟩
  · obtain rfl : k = i := by dsimp only at hki; omega
    exact le_rfl

/-- **The exchanges sort.** -/
lemma exchangeLoop_ends (hn : n ≤ s.length) :
    Ends (fun fuel => exchangeLoop n fuel (s, 0)) fun r => SortedIn ∅ 0 (n - 1) s r.1 := by
  refine Ends.whileLoop
    (I := fun r : Cells ℤ × ℤ => r.1.length = s.length
      ∧ Rearranges (Set.Icc 0 (n - 1)) s.cell r.1.cell ∧ 0 ≤ r.2
      ∧ ∀ a b, 0 ≤ a → a < r.2 → a ≤ b → b ≤ n - 1 → r.1.cell a ≤ r.1.cell b)
    (fun r => (n - 1 - r.2).toNat) (fun r hr => ?_)
    ⟨rfl, .refl _ _, le_rfl, fun a b ha ha' => by dsimp only at ha'; omega⟩
  obtain ⟨t, i⟩ := r
  obtain ⟨hlen, hrearr, hi, hsettled⟩ := hr
  dsimp only at *
  by_cases hin : i < n - 1
  · refine Or.inl ⟨by simp [hin], ?_⟩
    refine (exchangePass_ends hi hin (by omega)).bind fun ⟨t', j⟩ hpass => ?_
    refine .of_eq (fun _ => rfl) ⟨⟨hpass.length_eq.trans hlen,
      hrearr.trans (hpass.rearranges.mono (Set.Icc_subset_Icc_left hi)), by dsimp only; omega,
      fun a b ha hai hab hb => ?_⟩, by dsimp only; omega⟩
    dsimp only at hai ⊢
    rcases eq_or_ne a i with rfl | hne
    · exact hpass.least b hab (by omega)
    · -- the places in front of `i` keep their values, which are the least of all
      have hfix : t'.cell a = t.cell a :=
        hpass.rearranges.eq_of_notMem fun hmem => absurd hmem.1 (by omega)
      rw [hfix]
      by_cases hib : i ≤ b
      · exact hpass.rearranges.forall_mem (P := fun v => t.cell a ≤ v)
          (fun k hk => hsettled a k ha (by omega) ((by omega : a ≤ i).trans hk.1) hk.2) b ⟨hib, hb⟩
      · rw [hpass.rearranges.eq_of_notMem fun hmem => absurd hmem.1 hib]
        exact hsettled a b ha (by omega) hab hb
  · refine Or.inr ⟨by simpa using hin, .of_rearranges le_rfl (by omega) hlen (fun _ _ => rfl)
      (fun _ h => absurd h (Set.notMem_empty _)) hrearr fun a b ha hab hb => ?_⟩
    by_cases hai : a < i
    · exact hsettled a b ha hai hab hb
    · obtain rfl : a = b := by omega
      exact le_rfl

end Exchanging

namespace Inserting

variable {xs input : List ℤ} {b b' b₀ data data' data₀ : Cells ℤ} {n i j : ℤ}

/-- The numbers of the case are read. -/
lemma readLoop_ends (input : List ℤ) (hlen : xs.length ≤ b.length) {t : ℕ} (ht : t ≤ xs.length) :
    Ends (fun fuel => readLoop xs.length fuel (Cells.fill xs b t, xs.drop t ++ input, t))
      (· = some (Cells.fill xs b xs.length, input)) := by
  refine Ends.loop_numbered (n := xs.length)
    (fun t => (Cells.fill xs b t, xs.drop t ++ input, (t : ℤ))) (fun t ht => ?_) ?_ ht
  · refine .of_eq (fun _ => ?_) rfl
    rw [List.drop_eq_getElem_cons ht, List.cons_append]
    simp [Cells.store_fill ht hlen, ht]
  · refine .loop_step (.of_eq (r := .stop (some (Cells.fill xs b xs.length, input)))
      (fun _ => by simp) rfl)

/-- The arrays while `b[i]` is carried along the numbers in `data`, which are in order: it is
exchanged for each number that is greater, and put at the end. -/
structure Carrying (b₀ data₀ : Cells ℤ) (i : ℤ) (b data : Cells ℤ) (j : ℤ) : Prop where
  length_b : b.length = b₀.length
  length_data : data.length = data₀.length
  other : ∀ k, k ≠ i → b.cell k = b₀.cell k
  rearranges : Rearranges (Set.Icc 0 i) (Function.update data₀.cell i (b₀.cell i))
    (Function.update data.cell i (b.cell i))
  ascends : AscendsOn data.cell 0 (i - 1)
  nonneg : 0 ≤ j
  le : j ≤ i
  passed : ∀ k, 0 ≤ k → k < j → data.cell k ≤ b.cell i

/-- `b[i]` is put at the end. -/
lemma Carrying.skip (h : Carrying b₀ data₀ i b data j) (hj : j < i)
    (hle : data.cell j ≤ b.cell i) (hlen : data'.length = data.length)
    (hdata : data'.cell = Function.update data.cell i (b.cell i)) :
    Carrying b₀ data₀ i b data' (j + 1) where
  length_b := h.length_b
  length_data := hlen.trans h.length_data
  other := h.other
  rearranges := by
    rw [hdata, Function.update_idem]
    exact h.rearranges
  ascends := by
    refine h.ascends.congr fun k hk => ?_
    have hlt := hk.2
    rw [hdata, Function.update_of_ne (by omega)]
  nonneg := by
    have hnonneg := h.nonneg
    omega
  le := hj
  passed := by
    intro k hk hkj
    rw [hdata, Function.update_of_ne (by omega)]
    rcases (Int.lt_add_one_iff.mp hkj).lt_or_eq with hlt | rfl
    · exact h.passed k hk hlt
    · exact hle

/-- `b[i]` is exchanged for a greater number. -/
lemma Carrying.exchange (h : Carrying b₀ data₀ i b data j) (hj : j < i)
    (hgt : b.cell i < data.cell j) (hlen : b'.length = b.length)
    (hb : b'.cell = Function.update b.cell i (data.cell j)) (hlen' : data'.length = data.length)
    (hdata : data'.cell = Function.update data.cell j (b.cell i)) :
    Carrying b₀ data₀ i b' data' j where
  length_b := hlen.trans h.length_b
  length_data := hlen'.trans h.length_data
  other := by
    intro k hk
    rw [hb, Function.update_of_ne hk]
    exact h.other k hk
  rearranges := by
    have hnonneg := h.nonneg
    have hswap : Function.update data'.cell i (b'.cell i)
        = Function.update data.cell i (b.cell i) ∘ Equiv.swap j i := by
      rw [← update_eq_swap, Function.update_self, Function.update_of_ne hj.ne,
        Function.update_comm hj.ne', Function.update_idem, hb, Function.update_self, hdata]
    rw [hswap]
    exact h.rearranges.trans (.swap _ ⟨hnonneg, hj.le⟩ ⟨by omega, le_rfl⟩)
  ascends := by
    intro k l hk hkl hl
    rw [hdata]
    rcases eq_or_ne k j with rfl | hkj
    · rw [Function.update_self]
      rcases eq_or_ne l k with rfl | hlk
      · rw [Function.update_self]
      · rw [Function.update_of_ne hlk]
        exact hgt.le.trans (h.ascends k l hk hkl hl)
    · rw [Function.update_of_ne hkj]
      rcases eq_or_ne l j with rfl | hlj
      · rw [Function.update_self]
        exact h.passed k hk (by omega)
      · rw [Function.update_of_ne hlj]
        exact h.ascends k l hk hkl hl
  nonneg := h.nonneg
  le := h.le
  passed := by
    intro k hk hkj
    rw [hb, Function.update_self, hdata, Function.update_of_ne hkj.ne]
    exact h.ascends k j hk hkj.le (by omega)

lemma insertPass_ends (hi : 1 ≤ i) (hib : i < b.length) (hid : i < data.length)
    (hasc : AscendsOn data.cell 0 (i - 1)) :
    Ends (fun fuel => insertPass i fuel (b, data, 0)) fun r =>
      Carrying b data i r.1 r.2.1 i ∧ r.2.1.cell i = r.1.cell i := by
  refine Ends.whileLoop
    (I := fun r : Cells ℤ × Cells ℤ × ℤ => Carrying b data i r.1 r.2.1 r.2.2
      ∧ (1 ≤ r.2.2 → r.2.1.cell i = r.1.cell i))
    (fun r => (i - r.2.2).toNat) (fun r hr => ?_)
    ⟨⟨rfl, rfl, fun _ _ => rfl, .refl _ _, hasc, le_rfl, by dsimp only; omega,
      fun k hk hk' => by dsimp only at hk'; omega⟩, fun h => by dsimp only at h; omega⟩
  obtain ⟨b', data', j⟩ := r
  obtain ⟨hr, hlast⟩ := hr
  dsimp only at *
  have hlenb := hr.length_b
  have hlend := hr.length_data
  have hj₀ := hr.nonneg
  rcases hr.le.lt_or_eq with hj | rfl
  · refine Or.inl ⟨by simp [hj], ?_⟩
    refine Ends.load (by omega) (by omega) ?_
    refine Ends.load hj₀ (by omega) ?_
    by_cases hgt : b'.cell i < data'.cell j
    · simp only [hgt, if_true]
      refine Ends.load (by omega) (by omega) ?_
      refine Ends.load hj₀ (by omega) ?_
      refine Ends.store (by omega) (by omega) fun b₁ hlen₁ hcell₁ => ?_
      refine Ends.store hj₀ (by omega) fun data₁ hlen₂ hcell₂ => ?_
      refine Ends.load (by omega) (by omega) ?_
      refine Ends.store (by omega) (by omega) fun data₂ hlen₃ hcell₃ => ?_
      have hexch := hr.exchange hj hgt hlen₁ hcell₁ hlen₂ hcell₂
      have hle : data₁.cell j ≤ b₁.cell i := by
        rw [hcell₁, hcell₂, Function.update_self, Function.update_self]
        exact hgt.le
      refine .of_eq (fun _ => rfl) ⟨⟨hexch.skip hj hle hlen₃ hcell₃, fun _ => ?_⟩,
        by dsimp only; omega⟩
      dsimp only
      rw [hcell₃, Function.update_self]
    · simp only [hgt, if_false]
      refine Ends.load (by omega) (by omega) ?_
      refine Ends.store (by omega) (by omega) fun data₁ hlen₁ hcell₁ => ?_
      refine .of_eq (fun _ => rfl) ⟨⟨hr.skip hj (not_lt.mp hgt) hlen₁ hcell₁, fun _ => ?_⟩,
        by dsimp only; omega⟩
      dsimp only
      rw [hcell₁, Function.update_self]
  · exact Or.inr ⟨by simp, hr, hlast hi⟩

/-- **The insertions sort**, as if the numbers were in the array before. -/
lemma insertLoop_ends (hxs : 1 ≤ xs.length) (hb : xs.length ≤ b.length)
    (hdata : xs.length ≤ data.length) :
    Ends (fun fuel => insertLoop xs.length fuel
        (Cells.fill xs b xs.length, Cells.fill xs data 1, 1)) fun r =>
      SortedIn ∅ 0 (xs.length - 1) (Cells.fill xs data xs.length) r.2.1
        ∧ r.1.length = b.length := by
  refine Ends.whileLoop
    (I := fun r : Cells ℤ × Cells ℤ × ℤ => ∃ i : ℕ, r.2.2 = i ∧ 1 ≤ i ∧ i ≤ xs.length
      ∧ r.1.length = b.length ∧ r.2.1.length = data.length
      ∧ (∀ k, (i : ℤ) ≤ k → k < xs.length → r.1.cell k = Cells.cell xs k)
      ∧ Rearranges (Set.Icc 0 ((i : ℤ) - 1)) (Cells.fill xs data i).cell r.2.1.cell
      ∧ AscendsOn r.2.1.cell 0 (i - 1))
    (fun r => (xs.length - r.2.2).toNat) (fun r hr => ?_)
    ⟨1, rfl, le_rfl, hxs, Cells.length_fill le_rfl hb, Cells.length_fill hxs hdata,
      fun k hk hk' => Cells.cell_fill_of_lt (by omega) hk' le_rfl, .refl _ _,
      fun k l hk hkl hl => ?_⟩
  · obtain ⟨b', data', i'⟩ := r
    obtain ⟨i, rfl, hi, hin, hlenb, hlend, hrest, hrearr, hasc⟩ := hr
    dsimp only at *
    rcases hin.lt_or_eq with hlt | rfl
    · refine Or.inl ⟨by simp [hlt], ?_⟩
      refine (insertPass_ends (by omega) (by omega) (by omega) hasc).bind
        fun ⟨b₁, data₁, j⟩ ⟨hcarry, hlast⟩ => ?_
      refine .of_eq (fun _ => rfl) ⟨⟨i + 1, by simp, by omega, hlt,
        hcarry.length_b.trans hlenb, hcarry.length_data.trans hlend, fun k hk hk' => ?_, ?_, ?_⟩,
        by dsimp only; omega⟩
      · push_cast at hk
        dsimp only
        rw [hcarry.other k (by omega)]
        exact hrest k (by omega) hk'
      · -- the number is put behind the others, and all of them are permuted
        have hcell : b'.cell i = Cells.cell xs i := hrest i le_rfl (by omega)
        have hbehind := hrearr.update (i := (i : ℤ)) (by simp) (b'.cell i)
        have hmono := hbehind.mono (Set.Icc_subset_Icc_right (show (i : ℤ) - 1 ≤ i by omega))
        have hall := hmono.trans hcarry.rearranges
        rw [← hlast, Function.update_eq_self, hcell, ← Cells.cell_fill_succ hlt hdata] at hall
        rw [Nat.cast_succ, add_sub_cancel_right]
        exact hall
      · rw [Nat.cast_succ, add_sub_cancel_right]
        intro k l hk hkl hl
        dsimp only
        rcases hl.lt_or_eq with hl | rfl
        · exact hcarry.ascends k l hk hkl (by omega)
        · rcases hkl.lt_or_eq with hkl | rfl
          · rw [hlast]
            exact hcarry.passed k hk hkl
          · exact le_rfl
    · exact Or.inr ⟨by simp, .of_rearranges le_rfl (by rw [Cells.length_fill le_rfl hdata]; omega)
        (by rw [Cells.length_fill le_rfl hdata, hlend]) (fun _ _ => rfl)
        (fun _ h => absurd h (Set.notMem_empty _)) hrearr hasc, hlenb⟩
  · obtain rfl : k = l := by push_cast at hl; omega
    exact le_rfl

end Inserting

/-! ### The cases -/

section Cases

variable {xs input : List ℤ} {cases : List (List ℤ)} {s t b data : Cells ℤ}

lemma length_left (hlen : xs.length ≤ s.length) : (left s xs).length = s.length := by
  rw [left, List.length_append, (List.perm_insertionSort _ _).length_eq, List.length_drop]
  omega

/-- What the sorted array is printed as. -/
lemma printLoop_left (hxs : 1 ≤ xs.length) (hlen : xs.length < s.length) :
    Ends (fun fuel => printLoop (left s xs) xs.length fuel ([], 0)) fun r =>
      r.1 = lastOfRuns (s.cell xs.length) (xs.insertionSort (· ≤ ·)) := by
  have hsort : (xs.insertionSort (· ≤ ·)).length = xs.length :=
    (List.perm_insertionSort _ _).length_eq
  have hleft : (left s xs).length = s.length := length_left hlen.le
  have hsegment : (left s xs).segment 0 (xs.length - 1) = xs.insertionSort (· ≤ ·) := by
    rw [Cells.segment, left]
    simp [hsort]
  have hbehind : (left s xs).cell xs.length = s.cell xs.length := by
    refine Cells.cell_eq_of_load ?_
    rw [Cells.load, Cells.load, if_neg (by omega), if_neg (by omega), left,
      List.getElem?_append_right (by rw [hsort]; omega), List.getElem?_drop, hsort]
    congr 1
    omega
  refine (printLoop_ends [] (n := xs.length) le_rfl (by omega) (by omega)).mono
    fun r hr => ?_
  rw [hr, hsegment, hbehind, List.nil_append]

namespace Exchanging

lemma testCase_ends (input : List ℤ) (hxs : 1 ≤ xs.length) (hlen : xs.length < s.length) :
    Ends (fun fuel => testCase fuel s xs.length (xs ++ input))
      (· = (lastOfRuns (s.cell xs.length) (xs.insertionSort (· ≤ ·)), left s xs, input)) := by
  refine (readLoop_ends input hlen.le).bind fun r hr => ?_
  obtain rfl := hr
  have hfill : (Cells.fill xs s xs.length).length = s.length := Cells.length_fill le_rfl hlen.le
  refine (exchangeLoop_ends (s := Cells.fill xs s xs.length) (by rw [hfill]; omega)).bind
    fun ⟨t, i⟩ hsorted => ?_
  obtain rfl := eq_left_of_sortedIn hxs hsorted
  refine (printLoop_left hxs hlen).bind fun ⟨lines, j⟩ hlines => ?_
  obtain rfl := hlines
  exact .of_eq (fun _ => rfl) rfl

/-- **`2-2.c`**: each case finds in the array what the cases before have left. -/
lemma main_ends (hcases : ∀ xs ∈ cases, 1 ≤ xs.length ∧ xs.length < s.length) :
    Ends (fun fuel => main fuel s (tokens cases))
      (· = printed (fun k => (cases.take k).foldl left s) cases) := by
  induction cases generalizing s with
  | nil => exact .of_succ (.of_eq (fun _ => rfl) rfl)
  | cons xs cases ih =>
      obtain ⟨⟨hxs, hlen⟩, hcases⟩ := List.forall_mem_cons.mp hcases
      refine .of_succ ((testCase_ends (tokens cases) hxs hlen).bind fun r hr => ?_)
      obtain rfl := hr
      refine (ih (s := left s xs) (by rwa [length_left hlen.le])).bind fun rest hrest => ?_
      obtain rfl := hrest
      exact .of_eq (fun _ => rfl) rfl

end Exchanging

namespace Inserting

lemma testCase_ends (hxs : 1 ≤ xs.length) (hb : xs.length ≤ b.length)
    (hdata : xs.length < data.length) :
    Ends (fun fuel => testCase fuel (Cells.fill xs b xs.length) data xs.length) fun r =>
      r.1 = lastOfRuns (data.cell xs.length) (xs.insertionSort (· ≤ ·))
        ∧ r.2.length = b.length := by
  have hfill : (Cells.fill xs b xs.length).length = b.length := Cells.length_fill le_rfl hb
  refine Ends.load (i := 0) le_rfl (by omega) ?_
  have hcell : (Cells.fill xs b xs.length).cell 0 = xs[0] := by
    rw [Cells.cell_fill_of_lt le_rfl (by omega) le_rfl]
    exact Cells.cell_natCast hxs
  have hstore : data.store 0 xs[0] = some (Cells.fill xs data 1) :=
    Cells.store_fill (k := 0) hxs hdata.le
  simp only [hcell, hstore]
  refine (insertLoop_ends hxs hb hdata.le).bind fun ⟨b', data', i⟩ ⟨hsorted, hlenb⟩ => ?_
  obtain rfl := eq_left_of_sortedIn hxs hsorted
  refine (printLoop_left hxs hdata).bind fun ⟨lines, j⟩ hlines => ?_
  exact .of_eq (fun _ => rfl) ⟨hlines, hlenb⟩

/-- **`2.c`**: each case has an array of its own. -/
lemma main_ends {junk : ℕ → Cells ℤ} {k : ℕ} (hcases : ∀ xs ∈ cases,
      1 ≤ xs.length ∧ xs.length ≤ b.length ∧ ∀ k, xs.length < (junk k).length) :
    Ends (fun fuel => main junk fuel k b (tokens cases))
      (· = printed (fun l => junk (k + l)) cases) := by
  induction cases generalizing b k with
  | nil => exact .of_succ (.of_eq (fun _ => rfl) rfl)
  | cons xs cases ih =>
      obtain ⟨⟨hxs, hb, hdata⟩, hcases⟩ := List.forall_mem_cons.mp hcases
      cases xs with
      | nil => simp at hxs
      | cons x xs =>
          have hstore : b.store 0 x = some (Cells.fill (x :: xs) b 1) :=
            Cells.store_fill (k := 0) hxs hb
          have htokens : tokens ((x :: xs) :: cases)
              = ((x :: xs).length : ℤ) :: x :: (xs ++ tokens cases) := rfl
          rw [htokens]
          refine .of_succ ?_
          simp only [main, hstore, Option.bind_eq_bind, Option.bind_some]
          refine (readLoop_ends (tokens cases) hb hxs).bind fun r hr => ?_
          obtain rfl := hr
          refine (testCase_ends hxs hb (hdata k)).bind fun ⟨lines, b'⟩ ⟨hlines, hlenb⟩ => ?_
          obtain rfl := hlines
          refine (ih (b := b') (k := k + 1) (by rwa [hlenb])).bind fun rest hrest => ?_
          obtain rfl := hrest
          have hshift : (fun l => junk (k + 1 + l)) = fun l => junk (k + (l + 1)) := by
            funext l
            rw [Nat.add_right_comm, Nat.add_assoc]
          refine .of_eq (fun _ => rfl) ?_
          rw [printed, hshift]
          rfl

end Inserting

/-- **Sorting and leaving out duplicates**: both programs print, for each case, its distinct numbers
in ascending order, exactly when in no array there is, behind the numbers of a case, the largest one
of them: in `2-2.c` from a case before or from the start, in `2.c` from whatever was in the place of
the array. -/
theorem main_prints_distinct_iff {junk : ℕ → Cells ℤ} (hs : s.length = 65535)
    (hb : b.length = 1001) (hjunk : ∀ k, (junk k).length = 1001)
    (hcases : ∀ xs ∈ cases, 1 ≤ xs.length ∧ xs.length ≤ 1000) :
    (∃ outs, Returns (fun fuel => Exchanging.main fuel s (tokens cases)) outs
      ∧ Returns (fun fuel => Inserting.main junk fuel 0 b (tokens cases)) outs
      ∧ List.Forall₂ IsDistinct cases outs)
    ↔ NothingBehind (fun k => (cases.take k).foldl left s) cases ∧ NothingBehind junk cases := by
  have hroom : ∀ xs ∈ cases, 1 ≤ xs.length ∧ xs.length < s.length := by
    intro xs hxs
    have hlen := hcases xs hxs
    omega
  have hroom' : ∀ xs ∈ cases,
      1 ≤ xs.length ∧ xs.length ≤ b.length ∧ ∀ k, xs.length < (junk k).length := by
    intro xs hxs
    have hlen := hcases xs hxs
    refine ⟨hlen.1, by omega, fun k => ?_⟩
    rw [hjunk k]
    omega
  have hexch := Exchanging.main_ends hroom
  have hins := Inserting.main_ends (k := 0) hroom'
  simp only [Nat.zero_add] at hins
  rw [← printed_isDistinct_iff, ← printed_isDistinct_iff]
  constructor
  · rintro ⟨outs, houts, houts', hdistinct⟩
    rw [← hexch.of_returns houts, ← hins.of_returns houts']
    exact ⟨hdistinct, hdistinct⟩
  · rintro ⟨hdistinct, hdistinct'⟩
    obtain ⟨outs, houts, rfl⟩ := hexch
    obtain ⟨outs', houts', rfl⟩ := hins
    have heq : printed (fun k => (cases.take k).foldl left s) cases = printed junk cases :=
      List.right_unique_forall₂' (R := IsDistinct) (fun _ _ _ => IsDistinct.unique) hdistinct
        hdistinct'
    rw [← heq] at houts'
    exact ⟨_, houts, houts', hdistinct⟩

/-- The theorem at two cases, the second one shorter, in arrays of zeros. -/
theorem main_prints_distinct_iff_two :
    (∃ outs, Returns (fun fuel => Exchanging.main fuel (List.replicate 65535 0)
        (tokens [[3, 1, 3], [2, 5]])) outs
      ∧ Returns (fun fuel => Inserting.main (fun _ => List.replicate 1001 0) fuel 0
        (List.replicate 1001 0) (tokens [[3, 1, 3], [2, 5]])) outs
      ∧ List.Forall₂ IsDistinct [[3, 1, 3], [2, 5]] outs)
    ↔ NothingBehind (fun k => (([[3, 1, 3], [2, 5]] : List (List ℤ)).take k).foldl left
        (List.replicate 65535 0)) [[3, 1, 3], [2, 5]]
      ∧ NothingBehind (fun _ => List.replicate 1001 0) [[3, 1, 3], [2, 5]] :=
  main_prints_distinct_iff List.length_replicate List.length_replicate
    (fun _ => List.length_replicate) (by decide)

/-- The largest number of the second case is where the first one has left it: `2-2.c` does not print
it. -/
theorem main_omits_largest :
    ¬ ∃ outs, Returns (fun fuel => Exchanging.main fuel (List.replicate 65535 0)
        (tokens [[1, 5], [5]])) outs
      ∧ List.Forall₂ IsDistinct [[1, 5], [5]] outs := by
  rintro ⟨outs, houts, hdistinct⟩
  have hroom : ∀ xs ∈ ([[1, 5], [5]] : List (List ℤ)),
      1 ≤ xs.length ∧ xs.length < (List.replicate 65535 (0 : ℤ)).length := by
    rw [List.length_replicate]
    decide
  have hends := Exchanging.main_ends hroom
  rw [hends.of_returns houts, printed_isDistinct_iff] at hdistinct
  have hcell : (left (List.replicate 65535 0) [1, 5]).cell 1 = 5 := rfl
  refine hdistinct 1 [5] rfl ?_
  beta_reduce
  rw [List.take_succ_cons, List.take_zero, List.foldl_cons, List.foldl_nil, List.length_singleton,
    Nat.cast_one, hcell]
  exact ⟨List.mem_singleton_self 5, fun x hx => (List.mem_singleton.mp hx).le⟩

end Cases

end Wgs.Distinct
