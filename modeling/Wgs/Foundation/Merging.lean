import Mathlib.Data.List.Sort
import Wgs.Foundation.Cells

/-!
Merging lists of records by key: stability, and how many pairs it finds out of order.

`List.mergeSort` by key leaves the records in ascending order, and those with one key in their
original order (`stablySorted_mergeSort`).  So does every program that only exchanges neighbours
with different keys (`StablyRearranged.swap`).  `List.merge` puts the records of the left list in
front of those of the right one with the same key (`filter_merge`).

`inversions key xs` counts the pairs of `xs` that are out of order.  Of two lists one after the
other, those with one member in each are the `crossings`; they do not depend on how the two lists
are ordered.  When two ascending lists are merged, a record that is taken from the right one jumps
over what is left of the left one, and the `jumps` add up to the crossings (`sum_jumps`).
-/

namespace Foundation

variable {α : Type*} {key : α → ℤ} {xs xs' ys ys' : List α} {x y : α}

/-- The comparison by key. -/
def keyLe (key : α → ℤ) (x y : α) : Bool := decide (key x ≤ key y)

/-- The list ascends by key. -/
def Ascending (key : α → ℤ) (xs : List α) : Prop := xs.Pairwise fun x y => key x ≤ key y

/-! ### Stability -/

/-- `ys` is a rearrangement of `xs`, with the records of one key in the order that they had. -/
structure StablyRearranged (key : α → ℤ) (xs ys : List α) : Prop where
  perm : ys.Perm xs
  stable : ∀ k, ys.filter (fun x => key x = k) = xs.filter fun x => key x = k

/-- `ys` is `xs` in ascending order, with the records of one key in the order that they had. -/
structure StablySorted (key : α → ℤ) (xs ys : List α) : Prop where
  perm : ys.Perm xs
  ascending : Ascending key ys
  stable : ∀ k, ys.filter (fun x => key x = k) = xs.filter fun x => key x = k

namespace StablyRearranged

lemma refl (key : α → ℤ) (xs : List α) : StablyRearranged key xs xs := ⟨.refl _, fun _ => rfl⟩

lemma trans {zs : List α} (h : StablyRearranged key xs ys) (h' : StablyRearranged key ys zs) :
    StablyRearranged key xs zs :=
  ⟨h'.perm.trans h.perm, fun k => (h'.stable k).trans (h.stable k)⟩

lemma append_right (h : StablyRearranged key xs ys) (zs : List α) :
    StablyRearranged key (xs ++ zs) (ys ++ zs) := by
  refine ⟨h.perm.append_right zs, fun k => ?_⟩
  rw [List.filter_append, List.filter_append, h.stable k]

/-- **Neighbours with different keys change places.** -/
lemma swap (hkey : key x ≠ key y) :
    StablyRearranged key (xs ++ x :: y :: ys) (xs ++ y :: x :: ys) := by
  refine ⟨(List.Perm.swap x y ys).append_left xs, fun k => ?_⟩
  rw [List.filter_append, List.filter_append]
  congr 1
  by_cases hk : key x = k
  · have hk' : key y ≠ k := fun heq => hkey (hk.trans heq.symm)
    simp [hk, hk']
  · simp [List.filter_cons, hk]

lemma sorted (h : StablyRearranged key xs ys) (hasc : Ascending key ys) : StablySorted key xs ys :=
  ⟨h.perm, hasc, h.stable⟩

lemma trans_sorted {zs : List α} (h : StablyRearranged key xs ys) (h' : StablySorted key ys zs) :
    StablySorted key xs zs :=
  (h.trans ⟨h'.perm, h'.stable⟩).sorted h'.ascending

end StablyRearranged

lemma keyLe_trans (key : α → ℤ) (x y z : α) (hxy : keyLe key x y) (hyz : keyLe key y z) :
    keyLe key x z := by
  rw [keyLe, decide_eq_true_iff] at *
  exact hxy.trans hyz

lemma keyLe_total (key : α → ℤ) (x y : α) : keyLe key x y || keyLe key y x := by
  rw [Bool.or_eq_true, keyLe, keyLe, decide_eq_true_iff, decide_eq_true_iff]
  exact le_total _ _

lemma ascending_mergeSort (key : α → ℤ) (xs : List α) :
    Ascending key (xs.mergeSort (keyLe key)) :=
  (List.pairwise_mergeSort (keyLe_trans key) (keyLe_total key) xs).imp fun h =>
    of_decide_eq_true h

/-- **Merge sort is stable.** -/
theorem stablySorted_mergeSort (key : α → ℤ) (xs : List α) :
    StablySorted key xs (xs.mergeSort (keyLe key)) where
  perm := List.mergeSort_perm _ _
  ascending := ascending_mergeSort key xs
  stable := by
    intro k
    set group := xs.filter fun x => key x = k with hgroup
    have hkey : ∀ x ∈ group, key x = k := fun x hx => by simpa using (List.mem_filter.mp hx).2
    have hpairwise : group.Pairwise fun x y => keyLe key x y := by
      refine List.pairwise_of_forall_mem_list fun x hx y hy => ?_
      rw [keyLe, decide_eq_true_iff, hkey x hx, hkey y hy]
    -- the group is a sublist of the result, and has as many members as its records there
    have hsub : group.Sublist (xs.mergeSort (keyLe key)) :=
      List.sublist_mergeSort (keyLe_trans key) (keyLe_total key) hpairwise List.filter_sublist
    have hfilter := hsub.filter fun x => key x = k
    rw [hgroup, List.filter_filter] at hfilter
    simp only [Bool.and_self] at hfilter
    refine (hfilter.eq_of_length ?_).symm
    exact ((List.mergeSort_perm xs (keyLe key)).filter _).length_eq.symm

/-! ### Merged lists -/

lemma mem_map_merge {β : Type*} {f : α → β} {b : β} {le : α → α → Bool} :
    b ∈ (xs.merge ys le).map f ↔ b ∈ xs.map f ∨ b ∈ ys.map f := by
  rw [((List.merge_perm_append le).map f).mem_iff, List.map_append, List.mem_append]

lemma sublist_merge_left (le : α → α → Bool) : xs.Sublist (xs.merge ys le) := by
  induction xs generalizing ys with
  | nil => exact List.nil_sublist _
  | cons x xs ih =>
      induction ys with
      | nil => rw [List.merge_right]
      | cons y ys ih' =>
          rw [List.cons_merge_cons]
          split_ifs
          · exact ih.cons_cons x
          · exact ih'.cons y

lemma sublist_merge_right (le : α → α → Bool) : ys.Sublist (xs.merge ys le) := by
  induction xs generalizing ys with
  | nil => rw [List.nil_merge]
  | cons x xs ih =>
      induction ys with
      | nil => exact List.nil_sublist _
      | cons y ys ih' =>
          rw [List.cons_merge_cons]
          split_ifs
          · exact ih.cons x
          · exact ih'.cons_cons y

lemma ascending_merge (hxs : Ascending key xs) (hys : Ascending key ys) :
    Ascending key (xs.merge ys (keyLe key)) :=
  (List.pairwise_merge (keyLe_trans key) (keyLe_total key) xs ys (hxs.imp decide_eq_true)
    (hys.imp decide_eq_true)).imp of_decide_eq_true

/-- **Of the records of one key, those of the left list come first.** -/
lemma filter_merge (hxs : Ascending key xs) (k : ℤ) :
    (xs.merge ys (keyLe key)).filter (fun x => key x = k)
      = xs.filter (fun x => key x = k) ++ ys.filter fun x => key x = k := by
  induction xs generalizing ys with
  | nil => rw [List.nil_merge, List.filter_nil, List.nil_append]
  | cons x xs ih =>
      induction ys with
      | nil => rw [List.merge_right, List.filter_nil, List.append_nil]
      | cons y ys ih' =>
          by_cases hle : key x ≤ key y
          · rw [List.cons_merge_cons_pos _ _ _ (decide_eq_true hle), List.filter_cons,
              List.filter_cons (x := x), ih hxs.of_cons]
            split_ifs <;> rfl
          · rw [List.cons_merge_cons_neg _ _ _ (by simpa [keyLe] using hle), List.filter_cons, ih',
              List.filter_cons (x := y)]
            split_ifs with hk
            · -- the left list has greater keys only
              have hnone : (x :: xs).filter (fun x => key x = k) = [] := by
                refine List.filter_eq_nil_iff.mpr fun z hz => ?_
                have hge : key x ≤ key z := by
                  rcases List.mem_cons.mp hz with rfl | hz
                  · exact le_rfl
                  · exact List.rel_of_pairwise_cons hxs hz
                simp only [decide_eq_true_eq] at hk ⊢
                omega
              rw [hnone, List.nil_append, List.nil_append]
            · rfl

/-- The lists that merge sort merges. -/
lemma mergeSort_eq_merge {n : ℕ} (le : α → α → Bool) (hxs : 2 ≤ xs.length)
    (hn : n = (xs.length + 1) / 2) :
    xs.mergeSort le = ((xs.take n).mergeSort le).merge ((xs.drop n).mergeSort le) le := by
  match xs, hxs with
  | x :: y :: xs, _ =>
      rw [List.mergeSort]
      simp only [List.MergeSort.Internal.splitInTwo, List.splitAt_eq, hn]

section Segments

variable {α : Type} {key : α → ℤ} {s : Cells α} {i j l m r : ℤ}

/-- The halves of a range are the halves that the sorting of lists splits it into. -/
lemma mergeSort_segment (le : α → α → Bool) (hl : 0 ≤ l) (hlr : l < r) (hr : r < s.length)
    (hm : m = (l + r) / 2) : (s.segment l r).mergeSort le
      = ((s.segment l m).mergeSort le).merge ((s.segment (m + 1) r).mergeSort le) le := by
  have hlen : (s.segment l r).length = (r + 1 - l).toNat := Cells.length_segment hl hr
  have hleft : (s.segment l m).length = (m + 1 - l).toNat := Cells.length_segment hl (by omega)
  have happend : s.segment l m ++ s.segment (m + 1) r = s.segment l r :=
    Cells.segment_append hl (by omega) (by omega)
  rw [mergeSort_eq_merge (n := (m + 1 - l).toNat) le (by omega) (by omega), ← happend,
    ← hleft, List.take_left, List.drop_left]

variable [Inhabited α]

/-- The first entry of the left segment goes first. -/
lemma merge_segment_left (hi : 0 ≤ i) (him : i ≤ m) (hm : m < s.length) (hj : 0 ≤ j) (hjr : j ≤ r)
    (hr : r < s.length) (hle : key (s.cell i) ≤ key (s.cell j)) :
    (s.segment i m).merge (s.segment j r) (keyLe key)
      = s.cell i :: (s.segment (i + 1) m).merge (s.segment j r) (keyLe key) := by
  have hcmp : keyLe key (s.cell i) (s.cell j) := decide_eq_true hle
  rw [Cells.segment_cons hi him hm, Cells.segment_cons hj hjr hr,
    List.cons_merge_cons_pos _ _ _ hcmp]

/-- The first entry of the right segment goes first. -/
lemma merge_segment_right (hi : 0 ≤ i) (him : i ≤ m) (hm : m < s.length) (hj : 0 ≤ j) (hjr : j ≤ r)
    (hr : r < s.length) (hlt : key (s.cell j) < key (s.cell i)) :
    (s.segment i m).merge (s.segment j r) (keyLe key)
      = s.cell j :: (s.segment i m).merge (s.segment (j + 1) r) (keyLe key) := by
  have hcmp : ¬ keyLe key (s.cell i) (s.cell j) := by
    rw [keyLe, decide_eq_true_iff]
    exact not_le.mpr hlt
  rw [Cells.segment_cons hi him hm, Cells.segment_cons hj hjr hr,
    List.cons_merge_cons_neg _ _ _ hcmp]

end Segments

/-! ### Inversions -/

/-- How many pairs of the list are out of order. -/
def inversions (key : α → ℤ) : List α → ℕ
  | [] => 0
  | x :: xs => xs.countP (fun y => key y < key x) + inversions key xs

/-- How many pairs of a record of `xs` and one of `ys` are out of order. -/
def crossings (key : α → ℤ) (xs ys : List α) : ℕ :=
  (xs.map fun x => ys.countP fun y => key y < key x).sum

lemma inversions_append : inversions key (xs ++ ys)
    = inversions key xs + inversions key ys + crossings key xs ys := by
  induction xs with
  | nil => simp [inversions, crossings]
  | cons x xs ih =>
      rw [crossings] at ih
      rw [List.cons_append, inversions, inversions, crossings, List.map_cons, List.sum_cons, ih,
        List.countP_append]
      omega

lemma crossings_perm (hxs : xs.Perm xs') (hys : ys.Perm ys') :
    crossings key xs ys = crossings key xs' ys' := by
  rw [crossings, crossings, (hxs.map _).sum_eq]
  congr 1
  exact List.map_congr_left fun x _ => hys.countP_eq _

lemma crossings_cons_left : crossings key (x :: xs) ys
    = ys.countP (fun y => key y < key x) + crossings key xs ys := by
  rw [crossings, crossings, List.map_cons, List.sum_cons]

lemma crossings_cons_right : crossings key xs (y :: ys)
    = xs.countP (fun x => key y < key x) + crossings key xs ys := by
  induction xs with
  | nil => rfl
  | cons x xs ih =>
      rw [crossings_cons_left, crossings_cons_left, ih, List.countP_cons, List.countP_cons]
      omega

lemma crossings_nil : crossings key xs [] = 0 := by
  induction xs with
  | nil => rfl
  | cons x xs ih => rw [crossings_cons_left, ih, List.countP_nil]

/-- A list without a pair out of order ascends. -/
lemma inversions_eq_zero_iff : inversions key xs = 0 ↔ Ascending key xs := by
  induction xs with
  | nil => exact ⟨fun _ => .nil, fun _ => rfl⟩
  | cons x xs ih =>
      rw [inversions, Nat.add_eq_zero_iff, ih, Ascending, Ascending, List.pairwise_cons,
        List.countP_eq_zero]
      simp only [decide_eq_true_eq, not_lt]

/-! ### The jumps of a merge -/

/-- What every record that a merge takes from `ys` before the end of `xs` jumps over. -/
def jumps (key : α → ℤ) : List α → List α → List ℕ
  | [], _ => []
  | _ :: _, [] => []
  | x :: xs, y :: ys =>
      if key x ≤ key y then jumps key xs (y :: ys) else (xs.length + 1) :: jumps key (x :: xs) ys
termination_by xs ys => xs.length + ys.length

lemma jumps_nil_right : jumps key xs [] = [] := by
  cases xs with
  | nil => rw [jumps]
  | cons x xs => rw [jumps]

/-- **The jumps add up to the crossings.** -/
theorem sum_jumps (hxs : Ascending key xs) (hys : Ascending key ys) :
    (jumps key xs ys).sum = crossings key xs ys := by
  induction xs, ys using jumps.induct key with
  | case1 ys => rw [jumps, crossings, List.map_nil]
  | case2 x xs => rw [jumps, crossings_nil, List.sum_nil]
  | case3 x xs y ys hle ih =>
      have hnone : (y :: ys).countP (fun y => key y < key x) = 0 := by
        refine List.countP_eq_zero.mpr fun z hz => ?_
        rw [decide_eq_true_iff, not_lt]
        rcases List.mem_cons.mp hz with rfl | hz
        · exact hle
        · exact hle.trans (List.rel_of_pairwise_cons hys hz)
      rw [jumps, if_pos hle, crossings_cons_left, hnone, ih hxs.of_cons hys, Nat.zero_add]
  | case4 x xs y ys hgt ih =>
      have hall : (x :: xs).countP (fun x => key y < key x) = xs.length + 1 := by
        refine List.countP_eq_length.mpr fun z hz => ?_
        rw [decide_eq_true_iff]
        rcases List.mem_cons.mp hz with rfl | hz
        · exact not_le.mp hgt
        · exact (not_le.mp hgt).trans_le (List.rel_of_pairwise_cons hxs hz)
      rw [jumps, if_neg hgt, List.sum_cons, crossings_cons_right, hall, ih hxs hys.of_cons]

lemma jumps_pos {c : ℕ} (h : c ∈ jumps key xs ys) : 0 < c := by
  induction xs, ys using jumps.induct key with
  | case1 ys => simp [jumps] at h
  | case2 x xs => simp [jumps] at h
  | case3 x xs y ys hle ih =>
      rw [jumps, if_pos hle] at h
      exact ih h
  | case4 x xs y ys hgt ih =>
      rw [jumps, if_neg hgt, List.mem_cons] at h
      rcases h with rfl | h
      · omega
      · exact ih h

/-- Nothing jumps when nothing crosses. -/
lemma jumps_eq_nil_iff (hxs : Ascending key xs) (hys : Ascending key ys) :
    jumps key xs ys = [] ↔ crossings key xs ys = 0 := by
  rw [← sum_jumps hxs hys, List.sum_eq_zero_iff]
  constructor
  · intro h
    simp [h]
  · intro h
    refine List.eq_nil_iff_forall_not_mem.mpr fun c hc => ?_
    have hpos := jumps_pos hc
    rw [h c hc] at hpos
    exact lt_irrefl 0 hpos

end Foundation
