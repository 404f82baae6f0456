import Wgs.Sorting.Merge

/-!
What `MergeSort` adds to `ans`, which the source has count the inversions on the side.

For each entry that jumps ahead, `Merge(l, m, r)` adds the number of entries jumped over and, on top
of that, `l - 1`.  So `ans` grows by the number of inversions or by more, and by no more exactly
when nothing jumps ahead in any merge of a range that does not start at 1 (`RightsAscend`).
-/

namespace Wgs.Sorting

open Foundation

/-- The pairs of places in the range that hold a greater value before a less one. -/
noncomputable def inversionCount (f : ℤ → ℤ) (l r : ℤ) : ℕ :=
  ((Finset.Icc l r ×ˢ Finset.Icc l r).filter fun p => p.1 < p.2 ∧ f p.1 > f p.2).card

/-- None of the additions overflows. -/
def NoOverflow (ans : ℤ) (ds : List ℤ) : Prop := ∀ p, p <+: ds → IsInt32 (ans + p.sum)

/-- The ends of the ranges that start at 1: the halves of the range up to `r`, and so on. -/
def leftEnd : ℤ → ℕ → ℤ
  | r, 0 => r
  | r, k + 1 => leftEnd ((1 + r) / 2) k

/-- Where `MergeSort(l, r)` merges ranges that do not start at 1, the values ascend: in the whole
range if it does not, in the right half of every range that starts at 1 if it does. -/
def RightsAscend (f : ℤ → ℤ) (l r : ℤ) : Prop :=
  (1 < l → AscendsOn f l r)
    ∧ (l = 1 → ∀ k, AscendsOn f (leftEnd r (k + 1) + 1) (leftEnd r k))

/-! ### Inversions of a range -/

section Count

variable {R : Cells ℤ} {f : ℤ → ℤ} {l m r : ℤ}

lemma countP_segment {P : ℤ → Prop} [DecidablePred P] (hl : 0 ≤ l) (hr : r < R.length) :
    (R.segment l r).countP P = ((Finset.Icc l r).filter fun k => P (R.cell k)).card := by
  induction hn : (r + 1 - l).toNat generalizing l with
  | zero =>
      have hlt : r < l := by omega
      rw [Cells.segment_of_lt hlt, Finset.Icc_eq_empty (by omega)]
      rfl
  | succ n ih =>
      have hle : l ≤ r := by omega
      rw [Cells.segment_cons hl hle hr, List.countP_cons, ih (by omega) (by omega),
        ← Finset.insert_Icc_add_one_left_eq_Icc hle, Finset.filter_insert]
      by_cases hP : P (R.cell l)
      · rw [if_pos (decide_eq_true hP), if_pos hP, Finset.card_insert_of_notMem (by simp)]
      · rw [if_neg (by simp [hP]), if_neg hP, Nat.add_zero]

/-- The pairs with the first place, and those without it. -/
lemma inversionCount_succ (hlr : l ≤ r) : inversionCount f l r
    = ((Finset.Icc (l + 1) r).filter fun k => f k < f l).card + inversionCount f (l + 1) r := by
  have hunion : (Finset.Icc l r ×ˢ Finset.Icc l r).filter (fun p => p.1 < p.2 ∧ f p.1 > f p.2)
      = ((Finset.Icc (l + 1) r).filter fun k => f k < f l).image (Prod.mk l)
        ∪ (Finset.Icc (l + 1) r ×ˢ Finset.Icc (l + 1) r).filter
          fun p => p.1 < p.2 ∧ f p.1 > f p.2 := by
    ext ⟨i, j⟩
    simp only [Finset.mem_filter, Finset.mem_product, Finset.mem_Icc, Finset.mem_union,
      Finset.mem_image, Prod.mk.injEq]
    constructor
    · rintro ⟨⟨⟨hi, hi'⟩, hj, hj'⟩, hij, hf⟩
      rcases hi.lt_or_eq with hlt | rfl
      · exact Or.inr ⟨⟨⟨by omega, hi'⟩, by omega, hj'⟩, hij, hf⟩
      · exact Or.inl ⟨j, ⟨⟨by omega, hj'⟩, hf⟩, rfl, rfl⟩
    · rintro (⟨k, ⟨⟨hk, hk'⟩, hf⟩, rfl, rfl⟩ | ⟨⟨⟨hi, hi'⟩, hj, hj'⟩, hij, hf⟩)
      · exact ⟨⟨⟨le_rfl, hlr⟩, by omega, hk'⟩, by omega, hf⟩
      · exact ⟨⟨⟨by omega, hi'⟩, by omega, hj'⟩, hij, hf⟩
  have hdisjoint : Disjoint (((Finset.Icc (l + 1) r).filter fun k => f k < f l).image (Prod.mk l))
      ((Finset.Icc (l + 1) r ×ˢ Finset.Icc (l + 1) r).filter
        fun p => p.1 < p.2 ∧ f p.1 > f p.2) := by
    rw [Finset.disjoint_left]
    rintro ⟨i, j⟩ hi hj
    simp only [Finset.mem_image, Prod.mk.injEq] at hi
    obtain ⟨k, -, rfl, -⟩ := hi
    simp only [Finset.mem_filter, Finset.mem_product, Finset.mem_Icc] at hj
    omega
  rw [inversionCount, hunion, Finset.card_union_of_disjoint hdisjoint,
    Finset.card_image_of_injective _ (Prod.mk_right_injective l), inversionCount]

/-- The inversions of the list. -/
lemma inversions_segment (hl : 0 ≤ l) (hr : r < R.length) :
    inversions id (R.segment l r) = inversionCount R.cell l r := by
  induction hn : (r + 1 - l).toNat generalizing l with
  | zero =>
      have hlt : r < l := by omega
      rw [Cells.segment_of_lt hlt, inversionCount, Finset.Icc_eq_empty (by omega)]
      rfl
  | succ n ih =>
      have hle : l ≤ r := by omega
      rw [Cells.segment_cons hl hle hr, inversions, ih (by omega) (by omega),
        countP_segment (by omega) hr, inversionCount_succ hle]
      rfl

lemma ascending_segment_iff (hl : 0 ≤ l) (hr : r < R.length) :
    Ascending id (R.segment l r) ↔ AscendsOn R.cell l r := by
  rw [Ascending, Cells.pairwise_segment_iff hl hr]
  constructor
  · intro h i j hi hij hj
    rcases hij.lt_or_eq with hlt | rfl
    · exact h i j hi hlt hj
    · exact le_rfl
  · exact fun h i j hi hij hj => h i j hi hij.le hj

end Count

/-! ### What is added -/

lemma foldl_of_noOverflow {ans : ℤ} {ds : List ℤ} (h : NoOverflow ans ds) :
    ds.foldl (fun ans d => toInt32 (ans + d)) ans = ans + ds.sum := by
  induction ds generalizing ans with
  | nil => simp
  | cons d ds ih =>
      have hfirst : toInt32 (ans + d) = ans + d := by
        refine toInt32_of_isInt32 ?_
        have hd := h [d] (List.prefix_cons_inj d |>.mpr List.nil_prefix)
        rwa [List.sum_singleton] at hd
      have hrest : NoOverflow (ans + d) ds := by
        intro p hp
        have hcons := h (d :: p) (List.prefix_cons_inj d |>.mpr hp)
        rwa [List.sum_cons, ← add_assoc] at hcons
      rw [List.foldl_cons, hfirst, ih hrest, List.sum_cons, add_assoc]

section Excess

variable {R : Cells ℤ} {f : ℤ → ℤ} {l m r : ℤ}

/-- How much more than the number of inversions `MergeSort(l, r)` adds. -/
def excess (R : Cells ℤ) (l r : ℤ) : ℤ :=
  (addends id R l r).sum - inversions id (R.segment l r)

/-- The entries that jump ahead in the last merge. -/
def lastJumps (R : Cells ℤ) (l m r : ℤ) : List ℕ :=
  jumps id ((R.segment l m).mergeSort (keyLe id)) ((R.segment (m + 1) r).mergeSort (keyLe id))

lemma sum_map_add (c : ℤ) (ns : List ℕ) :
    (ns.map fun n : ℕ => (n : ℤ) + c).sum = (ns.sum : ℤ) + c * ns.length := by
  induction ns with
  | nil => simp
  | cons n ns ih =>
      rw [List.map_cons, List.sum_cons, ih, List.sum_cons, List.length_cons]
      push_cast
      ring

/-- The jumps of the last merge are the pairs out of order across the halves. -/
lemma sum_lastJumps : (lastJumps R l m r).sum
    = crossings id (R.segment l m) (R.segment (m + 1) r) := by
  rw [lastJumps, sum_jumps (ascending_mergeSort _ _) (ascending_mergeSort _ _)]
  exact crossings_perm (List.mergeSort_perm _ _) (List.mergeSort_perm _ _)

/-- **One merge** adds `l - 1` too much for every entry that jumps ahead. -/
lemma excess_split (hl : 0 ≤ l) (hlr : l < r) (hm : m = (l + r) / 2) : excess R l r
    = excess R l m + excess R (m + 1) r + (l - 1) * (lastJumps R l m r).length := by
  have happend : R.segment l m ++ R.segment (m + 1) r = R.segment l r :=
    Cells.segment_append hl (by omega) (by omega)
  have hsum := sum_lastJumps (R := R) (l := l) (m := m) (r := r)
  have hadds : (addends id R l r).sum = (addends id R l m).sum + (addends id R (m + 1) r).sum
      + ((lastJumps R l m r).sum + (l - 1) * (lastJumps R l m r).length) := by
    rw [addends_of_lt hlr, ← hm, List.sum_append, List.sum_append, sum_map_add]
    rfl
  have hinversions : (inversions id (R.segment l r) : ℤ) = inversions id (R.segment l m)
      + inversions id (R.segment (m + 1) r) + (lastJumps R l m r).sum := by
    rw [← happend, inversions_append, hsum]
    push_cast
    rfl
  rw [excess, hadds, hinversions, excess, excess]
  ring

lemma excess_of_le (hl : 0 ≤ l) (hlr : r ≤ l) (hr : r < R.length) : excess R l r = 0 := by
  rw [excess, addends_of_le hlr]
  rcases hlr.lt_or_eq with hlt | rfl
  · rw [Cells.segment_of_lt hlt]
    rfl
  · rw [Cells.segment_cons hl le_rfl hr, Cells.segment_of_lt (by omega)]
    rfl

lemma excess_nonneg (hl : 1 ≤ l) (hr : r < R.length) : 0 ≤ excess R l r := by
  induction hn : (r - l).toNat using Nat.strong_induction_on generalizing l r with
  | _ n ih =>
      rcases le_or_gt r l with hle | hlt
      · rw [excess_of_le (by omega) hle hr]
      · rw [excess_split (by omega) hlt rfl]
        have hleft := ih _ (by omega) hl (by omega : (l + r) / 2 < R.length) rfl
        have hright := ih _ (by omega) (by omega : 1 ≤ (l + r) / 2 + 1) hr rfl
        have hlast : 0 ≤ (l - 1) * ((lastJumps R l ((l + r) / 2) r).length : ℤ) :=
          mul_nonneg (by omega) (by omega)
        omega

/-- The three parts of an excess of zero. -/
lemma excess_eq_zero_iff (hl : 1 ≤ l) (hlr : l < r) (hr : r < R.length) (hm : m = (l + r) / 2) :
    excess R l r = 0 ↔ excess R l m = 0 ∧ excess R (m + 1) r = 0
      ∧ (1 < l → (lastJumps R l m r).length = 0) := by
  have hleft := excess_nonneg (R := R) (r := m) hl (by omega)
  have hright := excess_nonneg (R := R) (l := m + 1) (r := r) (by omega) hr
  rw [excess_split (by omega) hlr hm]
  rcases hl.lt_or_eq with hlt | rfl
  · have hlast : 0 ≤ (l - 1) * ((lastJumps R l m r).length : ℤ) :=
      mul_nonneg (by omega) (by omega)
    have hzero : (l - 1) * ((lastJumps R l m r).length : ℤ) = 0
        ↔ (lastJumps R l m r).length = 0 := by
      rw [mul_eq_zero, Nat.cast_eq_zero]
      exact or_iff_right (by omega)
    rw [← hzero]
    constructor
    · exact fun h => ⟨by omega, by omega, fun _ => by omega⟩
    · rintro ⟨h₁, h₂, h₃⟩
      rw [h₁, h₂, h₃ hlt]
      rfl
  · rw [sub_self, zero_mul]
    constructor
    · exact fun h => ⟨by omega, by omega, fun h₁ => absurd h₁ (lt_irrefl 1)⟩
    · rintro ⟨h₁, h₂, -⟩
      omega

/-- Behind the cell 1, only an ascending range is counted right. -/
lemma excess_eq_zero_iff_ascends (hl : 1 < l) (hr : r < R.length) :
    excess R l r = 0 ↔ Ascending id (R.segment l r) := by
  induction hn : (r - l).toNat using Nat.strong_induction_on generalizing l r with
  | _ n ih =>
      rcases le_or_gt r l with hle | hlt
      · refine iff_of_true (excess_of_le (by omega) hle hr) ?_
        rw [ascending_segment_iff (by omega) hr]
        intro i j hi hij hj
        obtain rfl : i = j := by omega
        exact le_rfl
      · have happend : R.segment l ((l + r) / 2) ++ R.segment ((l + r) / 2 + 1) r
            = R.segment l r := Cells.segment_append (by omega) (by omega) (by omega)
        have hjumps : (lastJumps R l ((l + r) / 2) r).length = 0
            ↔ crossings id (R.segment l ((l + r) / 2)) (R.segment ((l + r) / 2 + 1) r) = 0 := by
          rw [List.length_eq_zero_iff, lastJumps, jumps_eq_nil_iff (ascending_mergeSort _ _)
            (ascending_mergeSort _ _), crossings_perm (List.mergeSort_perm _ _)
            (List.mergeSort_perm _ _)]
        rw [excess_eq_zero_iff hl.le hlt hr rfl, ih _ (by omega) hl (by omega) rfl,
          ih _ (by omega) (by omega : 1 < (l + r) / 2 + 1) hr rfl, hjumps,
          ← inversions_eq_zero_iff, ← inversions_eq_zero_iff, ← inversions_eq_zero_iff, ← happend,
          inversions_append]
        constructor
        · rintro ⟨h₁, h₂, h₃⟩
          rw [h₁, h₂, h₃ hl]
        · exact fun h => ⟨by omega, by omega, fun _ => by omega⟩

/-- From the cell 1 on, the right halves of the ranges that start there must ascend. -/
lemma excess_one_eq_zero_iff (hr₁ : 1 ≤ r) (hr : r < R.length) :
    excess R 1 r = 0 ↔ ∀ k, AscendsOn R.cell (leftEnd r (k + 1) + 1) (leftEnd r k) := by
  induction hn : (r - 1).toNat using Nat.strong_induction_on generalizing r with
  | _ n ih =>
      rcases hr₁.lt_or_eq with hlt | rfl
      · rw [excess_eq_zero_iff le_rfl hlt hr rfl, ih _ (by omega) (by omega) (by omega) rfl,
          excess_eq_zero_iff_ascends (by omega) hr, ascending_segment_iff (by omega) hr]
        constructor
        · rintro ⟨hleft, hright, -⟩ k
          cases k with
          | zero => exact hright
          | succ k => exact hleft k
        · exact fun h => ⟨fun k => h (k + 1), h 0, fun h₁ => absurd h₁ (lt_irrefl 1)⟩
      · refine iff_of_true (excess_of_le zero_le_one le_rfl hr) fun k => ?_
        have hone : ∀ k, leftEnd 1 k = 1 := by
          intro k
          induction k with
          | zero => rfl
          | succ k ih => exact ih
        rw [hone, hone]
        exact .of_lt (by omega)

/-- **The exact condition.** -/
lemma excess_eq_zero_iff_rightsAscend (hl : 1 ≤ l) (hlr : l ≤ r) (hr : r < R.length) :
    excess R l r = 0 ↔ RightsAscend R.cell l r := by
  rcases hl.lt_or_eq with hlt | rfl
  · rw [excess_eq_zero_iff_ascends hlt hr, ascending_segment_iff (by omega) hr]
    exact ⟨fun h => ⟨fun _ => h, fun h₁ => absurd h₁ hlt.ne'⟩, fun h => h.1 hlt⟩
  · rw [excess_one_eq_zero_iff hlr hr]
    exact ⟨fun h => ⟨fun h₁ => absurd h₁ (lt_irrefl 1), fun _ => h⟩, fun h => h.2 rfl⟩

/-- What `MergeSort` leaves in `ans`. -/
lemma mergeSort_ans {g : Globals ℤ} (hl : 0 ≤ l) (hr : r < g.R.length) (htmp : r < g.tmp.length)
    (hans : NoOverflow g.ans (addends id g.R l r)) :
    Ends (fun fuel => mergeSort id fuel g l r) fun g' =>
      g'.ans = g.ans + inversionCount g.R.cell l r + excess g.R l r := by
  refine (mergeSort_ends hl hr htmp).mono fun g' ⟨_, _, _, h, _⟩ => ?_
  rw [h, foldl_of_noOverflow hans, excess, inversions_segment hl hr]
  ring

/-- **The inversions on the side**: unless `ans` overflows, `MergeSort(l, r)` increases it by the
number of inversions exactly when the values ascend in all ranges that are merged and do not start
at 1. -/
theorem mergeSort_counts_iff {g : Globals ℤ} (hg : g.Sized) (hl : 1 ≤ l) (hlr : l ≤ r)
    (hr : r < arraySize) (hans : NoOverflow g.ans (addends id g.R l r)) :
    (∃ g', Returns (fun fuel => mergeSort id fuel g l r) g'
      ∧ g'.ans = g.ans + inversionCount g.R.cell l r) ↔ RightsAscend g.R.cell l r := by
  obtain ⟨htmp, hR⟩ := hg
  have hends := mergeSort_ans (g := g) (by omega : 0 ≤ l) (by omega) (by omega : r < g.tmp.length)
    hans
  rw [← excess_eq_zero_iff_rightsAscend hl hlr (by omega : r < (g.R.length : ℤ))]
  constructor
  · rintro ⟨g', hret, h⟩
    have h' := hends.of_returns hret
    omega
  · intro h
    obtain ⟨g', hret, h'⟩ := hends
    exact ⟨g', hret, by omega⟩

/-! ### An array that is miscounted -/

/-- `1, 2, 4, 3` from the cell 1 on. -/
def swappedArray : Cells ℤ := [0, 1, 2, 4, 3] ++ .replicate 100005 0

lemma length_swappedArray : swappedArray.length = arraySize := by
  rw [swappedArray, List.length_append, List.length_replicate]
  rfl

/-- The pair `4, 3` is counted three times. -/
lemma addends_swappedArray : addends id swappedArray 1 4 = [3] := by
  have h₁ : swappedArray.segment 1 1 = [1] := rfl
  have h₂ : swappedArray.segment 2 2 = [2] := rfl
  have h₃ : swappedArray.segment 3 3 = [4] := rfl
  have h₄ : swappedArray.segment 4 4 = [3] := rfl
  have hleft : swappedArray.segment 1 2 = [1, 2] := rfl
  have hright : swappedArray.segment 3 4 = [4, 3] := rfl
  have hsort : [(1 : ℤ), 2].mergeSort (keyLe id) = [1, 2] :=
    List.mergeSort_of_pairwise (by simp [keyLe])
  have hsort' : [(4 : ℤ), 3].mergeSort (keyLe id) = [3, 4] := by
    simp [List.mergeSort, List.MergeSort.Internal.splitInTwo, keyLe]
  have hsplit : addends id swappedArray 1 2 = [] := by
    rw [addends_of_lt (by norm_num)]
    simp [addends_of_le, h₁, h₂, jumps]
  have hsplit' : addends id swappedArray 3 4 = [3] := by
    rw [addends_of_lt (by norm_num)]
    simp [addends_of_le, h₃, h₄, jumps]
  rw [addends_of_lt (by norm_num)]
  simp [hsplit, hsplit', hleft, hright, hsort, hsort', jumps]

lemma noOverflow_swappedArray : NoOverflow 0 (addends id swappedArray 1 4) := by
  rw [addends_swappedArray]
  intro p hp
  obtain rfl | rfl : p = [] ∨ p = [3] := by
    rw [List.prefix_cons_iff] at hp
    simpa using hp
  all_goals rw [IsInt32]; decide

/-- The theorem at this array. -/
theorem mergeSort_counts_four :
    (∃ g', Returns
        (fun fuel => mergeSort id fuel ⟨.replicate 100010 0, swappedArray, 0⟩ 1 4) g'
      ∧ g'.ans = 0 + inversionCount swappedArray.cell 1 4) ↔ RightsAscend swappedArray.cell 1 4 :=
  mergeSort_counts_iff (g := ⟨.replicate 100010 0, swappedArray, 0⟩)
    ⟨List.length_replicate, length_swappedArray⟩ (by decide) (by decide) (by decide)
    noOverflow_swappedArray

/-- `MergeSort(1, 4)` adds 3 for the one inversion. -/
theorem mergeSort_miscounts :
    ¬ ∃ g', Returns (fun fuel => mergeSort id fuel ⟨.replicate 100010 0, swappedArray, 0⟩ 1 4) g'
      ∧ g'.ans = 0 + inversionCount swappedArray.cell 1 4 := by
  rintro ⟨g', hret, h⟩
  have hlen := length_swappedArray
  rw [arraySize] at hlen
  have hends := mergeSort_ans (g := ⟨.replicate 100010 0, swappedArray, 0⟩) (l := 1) (r := 4)
    (by decide) (by dsimp only; omega) (by rw [List.length_replicate]; decide)
    noOverflow_swappedArray
  have h' := hends.of_returns hret
  have hexcess : excess swappedArray 1 4 = 2 := by
    have hsegment : swappedArray.segment 1 4 = [1, 2, 4, 3] := rfl
    rw [excess, addends_swappedArray, hsegment]
    decide
  dsimp only at h'
  omega

end Excess

end Wgs.Sorting
