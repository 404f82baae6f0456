import Wgs.Foundation.Arrays
import Wgs.Foundation.MachineInt
import Wgs.Foundation.Merging

/-!
`merge` and `merge_sort` of `C/guibingpaixu.c`.

`merge_sort` sorts a range of the array `r` into the array `s`, which may be the same one: its two
halves go into an array `t` of its own, and are merged from there.  As the calls on the halves have
arrays of their own again, `r` is only read, until the merge writes the range of `s`.

The places in `t` are those in `r`, not counted from the start of the range, and `t` has 20 cells:
a range of more than one element that goes beyond 19 is not sorted, however short it is
(`mergeSort_sorts_iff`).  The entries are records that are compared by key.
-/

namespace Wgs.Sorting.TwoArray

open Foundation

/-! ### The program -/

section Program

variable {α : Type} (key : α → ℤ)

/-- `while ((i <= x2) && (j <= x3)) { … }` -/
def mergeLoop (r s : ℕ) (x2 x3 : ℤ) :
    ℕ → Arrays α × ℤ × ℤ × ℤ → Option (Arrays α × ℤ × ℤ × ℤ) :=
  whileLoop
    (fun (_, i, j, _) => return i ≤ x2 ∧ j ≤ x3)
    (fun _ (A, i, j, k) => do
      if key (← A.load r i) ≤ key (← A.load r j) then
        return (← A.store s k (← A.load r i), toInt32 (i + 1), j, toInt32 (k + 1))
      else
        return (← A.store s k (← A.load r j), i, toInt32 (j + 1), toInt32 (k + 1)))

/-- `while (i <= stop) s[k++] = r[i++];` -/
def copyRest (r s : ℕ) (stop : ℤ) : ℕ → Arrays α × ℤ × ℤ → Option (Arrays α × ℤ × ℤ) :=
  whileLoop
    (fun (_, i, _) => return i ≤ stop)
    (fun _ (A, i, k) => return (← A.store s k (← A.load r i), toInt32 (i + 1), toInt32 (k + 1)))

/-- `merge`. -/
def merge (fuel : ℕ) (A : Arrays α) (r s : ℕ) (x1 x2 x3 : ℤ) : Option (Arrays α) := do
  let (A, i, j, k) ← mergeLoop key r s x2 x3 fuel (A, x1, toInt32 (x2 + 1), x1)
  let (A, _, k) ← copyRest r s x2 fuel (A, i, k)
  let (A, _, _) ← copyRest r s x3 fuel (A, j, k)
  return A

/-- `merge_sort`. -/
def mergeSort : ℕ → Arrays α → ℕ → ℕ → ℤ → ℤ → Option (Arrays α)
  | 0, _, _, _, _, _ => none
  | fuel + 1, A, r, s, m, n => do
      -- `int p, t[20];`
      let t := A.length
      let A := A.enter 20
      if m = n then
        let A ← A.store s m (← A.load r m)
        return A.leave
      else
        let p := (toInt32 (m + n)).tdiv 2
        let A ← mergeSort fuel A r t m p
        let A ← mergeSort fuel A r t (toInt32 (p + 1)) n
        let A ← merge key fuel A t s m p n
        return A.leave

end Program

/-- The key of what a cell holds. -/
def cellKey {α : Type} (key : α → ℤ) (c : Option α) : ℤ := (c.map key).getD 0

/-! ### `merge` -/

section Merge

variable {α : Type} {key : α → ℤ} {A₀ A A' : Arrays α} {r s : ℕ} {l x1 x2 x3 i j k stop : ℤ}

/-- Two arrays that the ranges lie in, with something in every cell of the first one. -/
structure Mergeable (A : Arrays α) (r s : ℕ) (x1 x2 x3 : ℤ) : Prop where
  ne : r ≠ s
  lt_length : s < A.length
  nonneg : 0 ≤ x1
  le_split : x1 ≤ x2 + 1
  split_le : x2 ≤ x3
  small : x3 < 2147483647
  lt_r : x3 < (A.array r).length
  lt_s : x3 < (A.array s).length
  filled : A.Filled r x1 x3

/-- The arrays while two halves are merged: what is in `s` and the merge of the rest is the merge of
the halves. -/
structure Merging (key : α → ℤ) (A₀ : Arrays α) (r s : ℕ) (x1 x2 x3 : ℤ) (A : Arrays α)
    (i j k : ℤ) : Prop where
  bounds : Mergeable A₀ r s x1 x2 x3
  writes : Arrays.WritesIn s x1 x3 A₀ A
  le_i : x1 ≤ i
  i_le : i ≤ x2 + 1
  le_j : x2 + 1 ≤ j
  j_le : j ≤ x3 + 1
  k_eq : k = i + j - (x2 + 1)
  merged : (A.array s).segment x1 (k - 1)
      ++ ((A₀.array r).segment i x2).merge ((A₀.array r).segment j x3) (keyLe (cellKey key))
    = ((A₀.array r).segment x1 x2).merge ((A₀.array r).segment (x2 + 1) x3) (keyLe (cellKey key))

namespace Mergeable

lemma load_eq (h : Mergeable A₀ r s x1 x2 x3) (hwrites : Arrays.WritesIn s x1 x3 A₀ A)
    (hi : i ∈ Set.Icc x1 x3) :
    ∃ v, (A₀.array r).cell i = some v ∧ A.load r i = some v := by
  obtain ⟨v, hv⟩ := Option.isSome_iff_exists.mp (h.filled i hi)
  refine ⟨v, hv, Arrays.load_eq ?_⟩
  rw [hwrites.other r h.ne, hv]

/-- A value is stored behind what is in `s`. -/
lemma store_eq (h : Mergeable A₀ r s x1 x2 x3) (hwrites : Arrays.WritesIn s x1 x3 A₀ A)
    (hk : k ∈ Set.Icc x1 x3) (v : α) :
    ∃ A', A.store s k v = some A' ∧ Arrays.WritesIn s x1 x3 A₀ A'
      ∧ (A'.array s).segment x1 k = (A.array s).segment x1 (k - 1) ++ [some v] := by
  have hnonneg := h.nonneg
  have hsize : (A.array s).length = (A₀.array s).length := hwrites.size_eq
  have hlt := h.lt_s
  have hk₁ := hk.1
  have hk₃ := hk.2
  obtain ⟨A', hA', hwrites', hcell⟩ := Arrays.store_spec (v := v)
    (hwrites.length_eq ▸ h.lt_length) (by omega) (show k < (A.array s).length by omega)
  exact ⟨A', hA', hwrites.trans (hwrites'.mono hk₁ hk₃),
    Cells.segment_store hnonneg hk₁ (by omega) hwrites'.size_eq hcell⟩

end Mergeable

namespace Merging

lemma start (h : Mergeable A r s x1 x2 x3) : Merging key A r s x1 x2 x3 A x1 (x2 + 1) x1 where
  bounds := h
  writes := .refl _ _ _ _
  le_i := le_rfl
  i_le := h.le_split
  le_j := le_rfl
  j_le := by
    have hle := h.split_le
    omega
  k_eq := by omega
  merged := by rw [Cells.segment_of_lt (by omega), List.nil_append]

/-- When one half is used up, the rest is what is left of the other. -/
lemma rest (h : Merging key A₀ r s x1 x2 x3 A i j k) (hend : x2 < i ∨ x3 < j) :
    (A.array s).segment x1 (k - 1) ++ (A₀.array r).segment i x2 ++ (A₀.array r).segment j x3
      = ((A₀.array r).segment x1 x2).merge ((A₀.array r).segment (x2 + 1) x3)
        (keyLe (cellKey key)) := by
  rw [← h.merged, List.append_assoc]
  rcases hend with hi | hj
  · rw [Cells.segment_of_lt hi, List.nil_append, List.nil_merge]
  · rw [Cells.segment_of_lt hj, List.append_nil, List.merge_right]

end Merging

/-- The loop ends when one of the halves is used up. -/
lemma mergeLoop_ends (h : Mergeable A r s x1 x2 x3) :
    Ends (fun fuel => mergeLoop key r s x2 x3 fuel (A, x1, x2 + 1, x1)) fun t =>
      Merging key A r s x1 x2 x3 t.1 t.2.1 t.2.2.1 t.2.2.2 ∧ (x2 < t.2.1 ∨ x3 < t.2.2.1) := by
  refine Ends.whileLoop (I := fun t => Merging key A r s x1 x2 x3 t.1 t.2.1 t.2.2.1 t.2.2.2)
    (fun t => (x2 + 1 - t.2.1).toNat + (x3 + 1 - t.2.2.1).toNat) (fun t ht => ?_) (.start h)
  obtain ⟨A', i, j, k⟩ := t
  obtain ⟨-, hwrites, hli, him, hmj, hjr, hk, hmerged⟩ := ht
  dsimp only at *
  have hnonneg := h.nonneg
  have hsplit := h.split_le
  have hsmall := h.small
  have hlt := h.lt_r
  by_cases hij : i ≤ x2 ∧ j ≤ x3
  · obtain ⟨hi, hj⟩ := hij
    refine Or.inl ⟨by simp [hi, hj], ?_⟩
    obtain ⟨v, hv, hload⟩ := h.load_eq hwrites (i := i) ⟨hli, by omega⟩
    obtain ⟨w, hw, hload'⟩ := h.load_eq hwrites (i := j) ⟨by omega, hj⟩
    have hinc : ∀ c : ℤ, 0 ≤ c → c ≤ x3 → toInt32 (c + 1) = c + 1 :=
      fun c hc hc' => toInt32_of_isInt32 ⟨by omega, by omega⟩
    by_cases hcmp : key v ≤ key w
    · obtain ⟨A'', hA'', hwrites', hsegment⟩ :=
        h.store_eq hwrites (k := k) ⟨by omega, by omega⟩ v
      have hnext : Merging key A r s x1 x2 x3 A'' (i + 1) j (k + 1) := by
        refine ⟨h, hwrites', by omega, by omega, hmj, hjr, by omega, ?_⟩
        have hle : cellKey key ((A.array r).cell i) ≤ cellKey key ((A.array r).cell j) := by
          rw [hv, hw]
          exact hcmp
        rw [merge_segment_left (by omega) hi (by omega) (by omega) hj hlt hle] at hmerged
        rw [add_sub_cancel_right, hsegment, List.append_assoc, List.singleton_append, ← hv]
        exact hmerged
      refine .of_eq (r := (A'', i + 1, j, k + 1)) (fun _ => ?_) ⟨hnext, by dsimp only; omega⟩
      simp [hload, hload', hcmp, hA'', hinc i (by omega) (by omega),
        hinc k (by omega) (by omega)]
    · obtain ⟨A'', hA'', hwrites', hsegment⟩ :=
        h.store_eq hwrites (k := k) ⟨by omega, by omega⟩ w
      have hnext : Merging key A r s x1 x2 x3 A'' i (j + 1) (k + 1) := by
        refine ⟨h, hwrites', hli, him, by omega, by omega, by omega, ?_⟩
        have hgt : cellKey key ((A.array r).cell j) < cellKey key ((A.array r).cell i) := by
          rw [hv, hw]
          exact not_le.mp hcmp
        rw [merge_segment_right (by omega) hi (by omega) (by omega) hj hlt hgt] at hmerged
        rw [add_sub_cancel_right, hsegment, List.append_assoc, List.singleton_append, ← hw]
        exact hmerged
      refine .of_eq (r := (A'', i, j + 1, k + 1)) (fun _ => ?_) ⟨hnext, by dsimp only; omega⟩
      simp [hload, hload', hcmp, hA'', hinc j (by omega) (by omega),
        hinc k (by omega) (by omega)]
  · refine Or.inr ⟨by simpa using fun hi => not_le.mp fun hj => hij ⟨hi, hj⟩,
      ⟨h, hwrites, hli, him, hmj, hjr, hk, hmerged⟩, ?_⟩
    omega

/-- What is left of a half is copied behind what is in `s`. -/
lemma copyRest_ends (h : Mergeable A₀ r s x1 x2 x3) (hwrites : Arrays.WritesIn s x1 x3 A₀ A)
    (hi : x1 ≤ i) (hi' : i ≤ stop + 1) (hstop : stop ≤ x3) (hk : x1 ≤ k)
    (hk' : k + (stop - i) ≤ x3) :
    Ends (fun fuel => copyRest r s stop fuel (A, i, k)) fun t =>
      Arrays.WritesIn s x1 x3 A₀ t.1 ∧ t.2.2 = k + (stop + 1 - i)
      ∧ (t.1.array s).segment x1 (t.2.2 - 1)
        = (A.array s).segment x1 (k - 1) ++ (A₀.array r).segment i stop := by
  have hnonneg := h.nonneg
  have hsmall := h.small
  have hlt := h.lt_r
  refine Ends.whileLoop
    (I := fun t => Arrays.WritesIn s x1 x3 A₀ t.1 ∧ i ≤ t.2.1 ∧ t.2.1 ≤ stop + 1
      ∧ t.2.2 = k + (t.2.1 - i)
      ∧ (t.1.array s).segment x1 (t.2.2 - 1) ++ (A₀.array r).segment t.2.1 stop
        = (A.array s).segment x1 (k - 1) ++ (A₀.array r).segment i stop)
    (fun t => (stop + 1 - t.2.1).toNat) (fun t ht => ?_)
    ⟨hwrites, le_rfl, hi', by dsimp only; omega, rfl⟩
  obtain ⟨A', i', k'⟩ := t
  obtain ⟨hwrites', hle, hle', hk'', hsegment⟩ := ht
  dsimp only at *
  by_cases hend : i' ≤ stop
  · refine Or.inl ⟨by simp [hend], ?_⟩
    obtain ⟨v, hv, hload⟩ := h.load_eq hwrites' (i := i') ⟨by omega, by omega⟩
    obtain ⟨A'', hA'', hwrites'', hsegment'⟩ :=
      h.store_eq hwrites' (k := k') ⟨by omega, by omega⟩ v
    have hinc : toInt32 (i' + 1) = i' + 1 := toInt32_of_isInt32 ⟨by omega, by omega⟩
    have hinc' : toInt32 (k' + 1) = k' + 1 := toInt32_of_isInt32 ⟨by omega, by omega⟩
    refine .of_eq (r := (A'', i' + 1, k' + 1)) (fun _ => ?_)
      ⟨⟨hwrites'', by dsimp only; omega, by dsimp only; omega, by dsimp only; omega, ?_⟩, ?_⟩
    · simp [hload, hA'', hinc, hinc']
    · dsimp only
      rw [Cells.segment_cons (by omega) hend (by omega), hv] at hsegment
      rw [add_sub_cancel_right, hsegment', List.append_assoc, List.singleton_append]
      exact hsegment
    · dsimp only
      omega
  · refine Or.inr ⟨by simp [hend], hwrites', by omega, ?_⟩
    rw [Cells.segment_of_lt (show stop < i' by omega), List.append_nil] at hsegment
    exact hsegment

/-- **`merge`**: the range of `s` becomes the merge of the halves of `r`. -/
lemma merge_ends (h : Mergeable A r s x1 x2 x3) :
    Ends (fun fuel => merge key fuel A r s x1 x2 x3) fun A' => Arrays.WritesIn s x1 x3 A A'
      ∧ (A'.array s).segment x1 x3 = ((A.array r).segment x1 x2).merge
        ((A.array r).segment (x2 + 1) x3) (keyLe (cellKey key)) := by
  have hnonneg := h.nonneg
  have hsplit := h.le_split
  have hsplit' := h.split_le
  have hsmall := h.small
  have hinc : toInt32 (x2 + 1) = x2 + 1 := toInt32_of_isInt32 ⟨by omega, by omega⟩
  simp only [merge, hinc]
  refine (mergeLoop_ends h).bind fun ⟨A₁, i, j, k⟩ ⟨h₁, hend⟩ => ?_
  have hrest := h₁.rest hend
  obtain ⟨-, hwrites₁, hli, him, hmj, hjr, hk, -⟩ := h₁
  dsimp only at *
  refine (copyRest_ends h hwrites₁ hli him hsplit' (by omega) (by omega)).bind
    fun ⟨A₂, i₂, k₂⟩ ⟨hwrites₂, hk₂, hseg₂⟩ => ?_
  dsimp only at *
  refine (copyRest_ends h hwrites₂ (by omega) hjr le_rfl (by omega) (by omega)).bind
    fun ⟨A₃, i₃, k₃⟩ ⟨hwrites₃, hk₃, hseg₃⟩ => ?_
  dsimp only at *
  refine .of_eq (fun _ => rfl) ⟨hwrites₃, ?_⟩
  have hlast : k₃ - 1 = x3 := by omega
  rw [← hlast, hseg₃, hseg₂, hlast, hrest]

end Merge

/-! ### `merge_sort` -/

section MergeSort

variable {α : Type} {key : α → ℤ} {A A' : Arrays α} {r s t : ℕ} {m n p : ℤ}

/-- The halves, sorted in `t`, can be merged from there. -/
lemma mergeable_of_sorted (hm : 0 ≤ m) (hmp : m ≤ p + 1) (hpn : p ≤ n) (hn : n < 2147483647)
    (hts : t ≠ s) (ht : n < (A.array t).length) (hsA : s < A.length) (hs : n < (A.array s).length)
    (hleft : ∀ c ∈ (A.array t).segment m p, c.isSome)
    (hright : ∀ c ∈ (A.array t).segment (p + 1) n, c.isSome) : Mergeable A t s m p n := by
  refine ⟨hts, hsA, hm, hmp, hpn, hn, ht, hs, ?_⟩
  rw [Arrays.filled_iff hm ht, ← Cells.segment_append hm hmp hpn]
  intro c hc
  rcases List.mem_append.mp hc with hc | hc
  · exact hleft c hc
  · exact hright c hc

/-- What is sorted holds what was there. -/
lemma isSome_of_mem_sorted {a b : ℤ} {le : Option α → Option α → Bool} (hm : 0 ≤ m)
    (hr : n < (A.array r).length) (hfilled : A.Filled r m n) (ha : m ≤ a) (hb : b ≤ n) :
    ∀ c ∈ ((A.array r).segment a b).mergeSort le, c.isSome := by
  intro c hc
  rw [List.mem_mergeSort] at hc
  exact (Arrays.filled_iff (by omega) (by omega)).mp (hfilled.congr rfl ha hb) c hc

/-- A range of one element is copied. -/
lemma mergeSort_one (hm : 0 ≤ m) (hr : m < (A.array r).length) (hs : m < (A.array s).length)
    (hfilled : A.Filled r m m) :
    Ends (fun fuel => mergeSort key fuel A r s m m) fun A' => Arrays.WritesIn s m m A A'
      ∧ (A'.array s).segment m m = (A.array r).segment m m := by
  have hrA : r < A.length := Arrays.lt_length_of_lt (by omega) hr
  have hsA : s < A.length := Arrays.lt_length_of_lt (by omega) hs
  obtain ⟨v, hv⟩ := Option.isSome_iff_exists.mp (hfilled m ⟨le_rfl, le_rfl⟩)
  have hload : (A.enter 20).load r m = some v :=
    Arrays.load_eq (by rw [Arrays.array_enter 20 hrA, hv])
  obtain ⟨A₁, hA₁, hwrites, hcell⟩ := Arrays.store_spec (A := A.enter 20) (v := v)
    (by rw [Arrays.length_enter]; omega) hm (show m < ((A.enter 20).array s).length by
      rw [Arrays.array_enter 20 hsA]; exact hs)
  refine Ends.of_succ ?_
  simp only [mergeSort, if_true, hload, Option.bind_eq_bind, Option.bind_some, hA₁]
  refine .of_eq (fun _ => rfl) ⟨?_, ?_⟩
  · refine .of_leave (hwrites.length_eq.trans (Arrays.length_enter 20)) hsA
      (fun b hb hbs => ?_) ?_ fun i hi => ?_
    · rw [hwrites.other b hbs, Arrays.array_enter 20 hb]
    · rw [hwrites.size_eq, Arrays.array_enter 20 hsA]
    · rw [hwrites.frame i hi, Arrays.array_enter 20 hsA]
  · rw [Arrays.array_leave (by rw [hwrites.length_eq, Arrays.length_enter]; omega),
      Cells.segment_self hm hr,
      Cells.segment_self hm (by rw [hwrites.size_eq, Arrays.array_enter 20 hsA]; exact hs),
      hcell, Function.update_self, hv]

/-- **`merge_sort`**: the range of `s` becomes that of `r`, sorted as a list. -/
lemma mergeSort_ends (hm : 0 ≤ m) (hmn : m ≤ n) (hn : m = n ∨ n < 20)
    (hr : n < (A.array r).length) (hs : n < (A.array s).length) (hfilled : A.Filled r m n) :
    Ends (fun fuel => mergeSort key fuel A r s m n) fun A' => Arrays.WritesIn s m n A A'
      ∧ (A'.array s).segment m n = ((A.array r).segment m n).mergeSort (keyLe (cellKey key)) := by
  induction hd : (n - m).toNat using Nat.strong_induction_on generalizing A r s m n with
  | _ d ih =>
      by_cases heq : m = n
      · subst heq
        rw [Cells.segment_self hm hr, List.mergeSort_singleton, ← Cells.segment_self hm hr]
        exact mergeSort_one hm hr hs hfilled
      · have hrA : r < A.length := Arrays.lt_length_of_lt (by omega) hr
        have hsA : s < A.length := Arrays.lt_length_of_lt (by omega) hs
        have hsmall : n < 20 := hn.resolve_left heq
        have hsum : toInt32 (m + n) = m + n := toInt32_of_isInt32 ⟨by omega, by omega⟩
        have hp : (m + n).tdiv 2 = (m + n) / 2 := Int.tdiv_eq_ediv_of_nonneg (by omega)
        set p := (m + n) / 2 with hpdef
        have hinc : toInt32 (p + 1) = p + 1 := toInt32_of_isInt32 ⟨by omega, by omega⟩
        refine Ends.of_succ ?_
        simp only [mergeSort, heq, if_false, hsum, hp, hinc]
        have hrt : r ≠ A.length := by omega
        have ht : ((A.enter 20).array A.length).length = 20 := by
          rw [Arrays.array_enter_self, List.length_replicate]
        refine (ih _ (by omega) hm (show m ≤ p by omega) (Or.inr (by omega))
          (by rw [Arrays.array_enter 20 hrA]; omega) (by rw [ht]; omega)
          (hfilled.congr (Arrays.array_enter 20 hrA) le_rfl (by omega)) rfl).bind
          fun A₂ ⟨hwrites₂, hseg₂⟩ => ?_
        have hr₂ : A₂.array r = A.array r :=
          (hwrites₂.other r hrt).trans (Arrays.array_enter 20 hrA)
        refine (ih _ (by omega) (by omega) (show p + 1 ≤ n by omega) (Or.inr (by omega))
          (by rw [hr₂]; omega) (by rw [hwrites₂.size, ht]; omega)
          (hfilled.congr hr₂ (by omega) le_rfl) rfl).bind fun A₃ ⟨hwrites₃, hseg₃⟩ => ?_
        have hother : ∀ b < A.length, A₃.array b = A.array b := fun b hb => by
          rw [hwrites₃.other b (by omega), hwrites₂.other b (by omega), Arrays.array_enter 20 hb]
        have ht₃ : (A₃.array A.length).length = 20 := by rw [hwrites₃.size, hwrites₂.size, ht]
        rw [hr₂] at hseg₃
        rw [Arrays.array_enter 20 hrA] at hseg₂
        have hseg : (A₃.array A.length).segment m p
            = ((A.array r).segment m p).mergeSort (keyLe (cellKey key)) := by
          rw [hwrites₃.segment_eq hm (by rw [hwrites₂.size, ht]; omega) (Or.inl (by omega)), hseg₂]
        have hmergeable : Mergeable A₃ A.length s m p n := by
          refine mergeable_of_sorted hm (by omega) (by omega) (by omega) (by omega)
            (by rw [ht₃]; omega) ?_ (by rw [hother s hsA]; exact hs) ?_ ?_
          · rw [hwrites₃.length_eq, hwrites₂.length_eq, Arrays.length_enter]
            omega
          · rw [hseg]
            exact isSome_of_mem_sorted hm hr hfilled le_rfl (by omega)
          · rw [hseg₃]
            exact isSome_of_mem_sorted hm hr hfilled (by omega) le_rfl
        refine (merge_ends hmergeable).bind fun A₄ ⟨hwrites₄, hseg₄⟩ => ?_
        have hlen₄ : A₄.length = A.length + 1 := by
          rw [hwrites₄.length_eq, hwrites₃.length_eq, hwrites₂.length_eq, Arrays.length_enter]
        refine .of_eq (fun _ => rfl)
          ⟨.of_leave hlen₄ hsA (fun b hb hbs => ?_) ?_ fun i hi => ?_, ?_⟩
        · rw [hwrites₄.other b hbs, hother b hb]
        · rw [hwrites₄.size, hother s hsA]
        · rw [hwrites₄.frame i hi, hother s hsA]
        · rw [Arrays.array_leave (by omega), hseg₄, hseg, hseg₃,
            ← mergeSort_segment _ hm (by omega) hr hpdef]

/-! ### Ranges beyond the local array -/

lemma mergeLoop_sizes {fuel : ℕ} {x2 x3 : ℤ} {c c' : Arrays α × ℤ × ℤ × ℤ}
    (h : mergeLoop key r s x2 x3 fuel c = some c') : Arrays.SameSizes c.1 c'.1 := by
  refine whileLoop_invariant (I := fun d => Arrays.SameSizes c.1 d.1)
    (fun fuel d d' hd _ hbody => ?_)
    (.refl _) h
  obtain ⟨A, i, j, k⟩ := d
  obtain ⟨v, -, hbody⟩ := Option.bind_eq_some_iff.mp hbody
  obtain ⟨w, -, hbody⟩ := Option.bind_eq_some_iff.mp hbody
  split_ifs at hbody with hcmp
  all_goals
    obtain ⟨u, -, hbody⟩ := Option.bind_eq_some_iff.mp hbody
    obtain ⟨A', hA', hbody⟩ := Option.bind_eq_some_iff.mp hbody
    obtain rfl := Option.some_inj.mp hbody
    exact hd.trans (.of_store hA')

lemma copyRest_sizes {fuel : ℕ} {stop : ℤ} {c c' : Arrays α × ℤ × ℤ}
    (h : copyRest r s stop fuel c = some c') : Arrays.SameSizes c.1 c'.1 := by
  refine whileLoop_invariant (I := fun d => Arrays.SameSizes c.1 d.1)
    (fun fuel d d' hd _ hbody => ?_)
    (.refl _) h
  obtain ⟨A, i, k⟩ := d
  obtain ⟨v, -, hbody⟩ := Option.bind_eq_some_iff.mp hbody
  obtain ⟨A', hA', hbody⟩ := Option.bind_eq_some_iff.mp hbody
  obtain rfl := Option.some_inj.mp hbody
  exact hd.trans (.of_store hA')

lemma merge_sizes {fuel : ℕ} {x1 x2 x3 : ℤ} (h : merge key fuel A r s x1 x2 x3 = some A') :
    Arrays.SameSizes A A' := by
  obtain ⟨c, hc, h⟩ := Option.bind_eq_some_iff.mp h
  obtain ⟨d, hd, h⟩ := Option.bind_eq_some_iff.mp h
  obtain ⟨e, he, h⟩ := Option.bind_eq_some_iff.mp h
  obtain rfl := Option.some_inj.mp h
  have he' : Arrays.SameSizes d.1 e.1 := copyRest_sizes (c := (d.1, c.2.2.1, d.2.2)) he
  exact ((mergeLoop_sizes hc).trans (copyRest_sizes hd)).trans he'

/-- When `merge_sort` returns, the arrays have their sizes, and its range fits into the array that
it goes to or, if it has more than one element, into the local one. -/
lemma mergeSort_fits {fuel : ℕ} (hs : s < A.length)
    (h : mergeSort key fuel A r s m n = some A') :
    Arrays.SameSizes A A' ∧ (m = n ∧ n < (A.array s).length ∨ n < 20) := by
  induction fuel generalizing A A' s m n with
  | zero => cases h
  | succ fuel ih =>
      have hfresh : ((A.enter 20).array A.length).length = 20 := by
        rw [Arrays.array_enter_self, List.length_replicate]
      have hlt : A.length < (A.enter 20).length := by
        rw [Arrays.length_enter]
        exact Nat.lt_succ_self _
      rw [mergeSort] at h
      split_ifs at h with heq
      · obtain ⟨v, -, h⟩ := Option.bind_eq_some_iff.mp h
        obtain ⟨A₁, hA₁, h⟩ := Option.bind_eq_some_iff.mp h
        obtain rfl := Option.some_inj.mp h
        obtain ⟨-, hin, -⟩ := Arrays.store_writes hA₁
        rw [Arrays.array_enter 20 hs, heq] at hin
        exact ⟨(Arrays.SameSizes.of_store hA₁).leave, Or.inl ⟨heq, hin⟩⟩
      · obtain ⟨A₁, hA₁, h⟩ := Option.bind_eq_some_iff.mp h
        obtain ⟨A₂, hA₂, h⟩ := Option.bind_eq_some_iff.mp h
        obtain ⟨A₃, hA₃, h⟩ := Option.bind_eq_some_iff.mp h
        obtain rfl := Option.some_inj.mp h
        obtain ⟨hsizes₁, -⟩ := ih hlt hA₁
        obtain ⟨hsizes₂, hfits⟩ := ih (hsizes₁.length_eq ▸ hlt) hA₂
        refine ⟨((hsizes₁.trans hsizes₂).trans (merge_sizes hA₃)).leave, Or.inr ?_⟩
        -- the right half goes into the local array
        rw [hsizes₁.size_eq, hfresh] at hfits
        omega

/-- The range of `s` holds what that of `r` held, in ascending order, with the records of one key in
their original order; nothing else has changed. -/
structure SortedInto (key : α → ℤ) (r s : ℕ) (m n : ℤ) (A A' : Arrays α) : Prop where
  writes : Arrays.WritesIn s m n A A'
  sorted : ∃ xs ys, (A.array r).segment m n = xs.map some ∧ (A'.array s).segment m n = ys.map some
    ∧ StablySorted key xs ys

/-- **Two-array merge sort**: for any two arrays `r` and `s`, also for one and the same, and any
range of `r` whose cells hold something, `merge_sort` returns with the range sorted into `s` exactly
when the range is a single cell or ends below 20.  Every access outside of an array is a fault, so
that no run which returns makes one. -/
theorem mergeSort_sorts_iff (hm : 0 ≤ m) (hmn : m ≤ n) (hr : n < (A.array r).length)
    (hs : n < (A.array s).length) (hfilled : A.Filled r m n) :
    (∃ A', Returns (fun fuel => mergeSort key fuel A r s m n) A' ∧ SortedInto key r s m n A A')
    ↔ m = n ∨ n < 20 := by
  constructor
  · rintro ⟨A', ⟨N, hN⟩, -⟩
    have hsA : s < A.length := Arrays.lt_length_of_lt (by omega) hs
    obtain ⟨-, hfits⟩ := mergeSort_fits hsA (hN N le_rfl)
    exact hfits.imp_left And.left
  · intro hsmall
    have hends : Ends (fun fuel => mergeSort key fuel A r s m n) _ :=
      mergeSort_ends hm hmn hsmall hr hs hfilled
    obtain ⟨A', hret, hwrites, hseg⟩ := hends
    refine ⟨A', hret, hwrites, ?_⟩
    obtain ⟨xs, hxs⟩ := Arrays.exists_map_some ((Arrays.filled_iff hm hr).mp hfilled)
    refine ⟨xs, xs.mergeSort (keyLe key), hxs, ?_, stablySorted_mergeSort key xs⟩
    have hkey : ∀ x ∈ xs, ∀ y ∈ xs, keyLe key x y = keyLe (cellKey key) (some x) (some y) :=
      fun x _ y _ => rfl
    rw [hseg, hxs, List.map_mergeSort hkey]

/-- The theorem at the call in `main`, on an array of four cells. -/
theorem mergeSort_sorts_four :
    (∃ A', Returns (fun fuel => mergeSort id fuel [[none, some 3, some 1, some 2]] 0 0 1 3) A'
      ∧ SortedInto id 0 0 1 3 [[none, some 3, some 1, some 2]] A') ↔ (1 : ℤ) = 3 ∨ (3 : ℤ) < 20 :=
  mergeSort_sorts_iff (by decide) (by decide) (by decide) (by decide) (by
    rintro i ⟨hi, hi'⟩
    interval_cases i <;> rfl)

/-- The two elements at 19 and 20 are not sorted. -/
theorem mergeSort_twenty_fails :
    ¬ ∃ A', Returns (fun fuel => mergeSort id fuel [List.replicate 21 (some 0)] 0 0 19 20) A'
      ∧ SortedInto id 0 0 19 20 [List.replicate 21 (some 0)] A' := by
  rintro ⟨A', ⟨N, hN⟩, -⟩
  obtain ⟨-, hfits⟩ := mergeSort_fits Nat.zero_lt_one (hN N le_rfl)
  omega

end MergeSort

end Wgs.Sorting.TwoArray
