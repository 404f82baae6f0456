import Wgs.Foundation.Cells
import Wgs.Foundation.MachineInt
import Wgs.Foundation.Merging

/-!
`Merge` and `MergeSort` of `C/huawei/paixu.c`.

The two sorted halves of a range of `R` are merged into `tmp` and copied back.  The entries are
records that are compared by key, with the values themselves as the keys in the source.

`ans` counts on the side.  For every entry that jumps ahead the source adds `m - i + l`, where
`m - i + 1` entries are left on the left side: that is one for each of them only if the range starts
at 1.
-/

namespace Wgs.Sorting

open Foundation

/-! ### The program -/

/-- `#define N 100010` -/
def arraySize : ℕ := 100010

/-- `int tmp[N], R[N]; int ans;` -/
structure Globals (α : Type) where
  tmp : Cells α
  R : Cells α
  ans : ℤ

/-- The arrays have their size. -/
def Globals.Sized {α : Type} (g : Globals α) : Prop :=
  g.tmp.length = arraySize ∧ g.R.length = arraySize

section Program

variable {α : Type} (key : α → ℤ)

/-- `while (i <= m && j <= r) { … }` -/
def mergeLoop (l m r : ℤ) : ℕ → Globals α × ℤ × ℤ × ℤ → Option (Globals α × ℤ × ℤ × ℤ) :=
  whileLoop
    (fun (_, i, j, _) => return i ≤ m ∧ j ≤ r)
    (fun _ (g, i, j, k) => do
      if key (← g.R.load i) > key (← g.R.load j) then
        let tmp ← g.tmp.store k (← g.R.load j)
        return ({ g with tmp := tmp, ans := toInt32 (g.ans + (m - i + l)) }, i, j + 1, k + 1)
      else
        let tmp ← g.tmp.store k (← g.R.load i)
        return ({ g with tmp := tmp }, i + 1, j, k + 1))

/-- `while (i <= stop) tmp[k++] = R[i++];` -/
def copyRest (stop : ℤ) : ℕ → Globals α × ℤ × ℤ → Option (Globals α × ℤ × ℤ) :=
  whileLoop
    (fun (_, i, _) => return i ≤ stop)
    (fun _ (g, i, k) => do
      let tmp ← g.tmp.store k (← g.R.load i)
      return ({ g with tmp := tmp }, i + 1, k + 1))

/-- `for (i = l; i <= r; i++) R[i] = tmp[i];`, from some `i` on. -/
def copyBack (r : ℤ) : ℕ → Globals α × ℤ → Option (Globals α × ℤ) :=
  whileLoop
    (fun (_, i) => return i ≤ r)
    (fun _ (g, i) => do
      let R ← g.R.store i (← g.tmp.load i)
      return ({ g with R := R }, i + 1))

/-- `Merge`. -/
def merge (fuel : ℕ) (g : Globals α) (l m r : ℤ) : Option (Globals α) := do
  let (g, i, j, k) ← mergeLoop key l m r fuel (g, l, m + 1, l)
  let (g, _, k) ← copyRest m fuel (g, i, k)
  let (g, _, _) ← copyRest r fuel (g, j, k)
  let (g, _) ← copyBack r fuel (g, l)
  return g

/-- `MergeSort`. -/
def mergeSort : ℕ → Globals α → ℤ → ℤ → Option (Globals α)
  | 0, _, _, _ => none
  | fuel + 1, g, l, r => do
      if l < r then
        let m := (l + r) >>> (1 : ℕ)
        let g ← mergeSort fuel g l m
        let g ← mergeSort fuel g (m + 1) r
        merge key fuel g l m r
      else return g

end Program

/-! ### `Merge` -/

/-- `ans += …`, for one entry that jumps over `c` others, in a range that starts at `l`. -/
def addJump (l ans : ℤ) (c : ℕ) : ℤ := toInt32 (ans + (c + (l - 1)))

section Merge

variable {α : Type} {key : α → ℤ} {g₀ g g' : Globals α} {tmp : Cells α}
  {l m r i j k stop : ℤ}

/-- A range that lies in the arrays, and a place to split it at. -/
structure InArrays (g : Globals α) (l m r : ℤ) : Prop where
  nonneg : 0 ≤ l
  le_split : l ≤ m + 1
  split_le : m ≤ r
  lt_R : r < g.R.length
  lt_tmp : r < g.tmp.length

/-- The globals while two halves are merged: what is in `tmp` and the merge of the rest is the merge
of the halves, and so for the jumps. -/
structure Merging (key : α → ℤ) (g₀ : Globals α) (l m r : ℤ) (g : Globals α) (i j k : ℤ) :
    Prop where
  bounds : InArrays g₀ l m r
  tmp_length : g.tmp.length = g₀.tmp.length
  R_eq : g.R = g₀.R
  le_i : l ≤ i
  i_le : i ≤ m + 1
  le_j : m + 1 ≤ j
  j_le : j ≤ r + 1
  k_eq : k = i + j - (m + 1)
  merged : g.tmp.segment l (k - 1)
      ++ (g₀.R.segment i m).merge (g₀.R.segment j r) (keyLe key)
    = (g₀.R.segment l m).merge (g₀.R.segment (m + 1) r) (keyLe key)
  counted : (jumps key (g₀.R.segment i m) (g₀.R.segment j r)).foldl (addJump l) g.ans
    = (jumps key (g₀.R.segment l m) (g₀.R.segment (m + 1) r)).foldl (addJump l) g₀.ans

namespace Merging

lemma start (h : InArrays g l m r) : Merging key g l m r g l (m + 1) l where
  bounds := h
  tmp_length := rfl
  R_eq := rfl
  le_i := le_rfl
  i_le := h.le_split
  le_j := le_rfl
  j_le := by
    have hle := h.split_le
    omega
  k_eq := by omega
  merged := by rw [Cells.segment_of_lt (by omega), List.nil_append]
  counted := rfl

/-- When one half is used up, the rest is what is left of the other. -/
lemma rest (h : Merging key g₀ l m r g i j k) (hend : m < i ∨ r < j) :
    g.tmp.segment l (k - 1) ++ g₀.R.segment i m ++ g₀.R.segment j r
      = (g₀.R.segment l m).merge (g₀.R.segment (m + 1) r) (keyLe key)
    ∧ g.ans = (jumps key (g₀.R.segment l m) (g₀.R.segment (m + 1) r)).foldl (addJump l) g₀.ans := by
  obtain ⟨-, -, -, -, -, -, -, -, hmerged, hcounted⟩ := h
  rw [← hmerged, ← hcounted, List.append_assoc]
  rcases hend with hi | hj
  · rw [Cells.segment_of_lt hi, List.nil_append, List.nil_merge, jumps]
    exact ⟨rfl, rfl⟩
  · rw [Cells.segment_of_lt hj, List.append_nil, List.merge_right, jumps_nil_right]
    exact ⟨rfl, rfl⟩

end Merging

variable [Inhabited α]

/-- The entry of the right half goes first. -/
lemma Merging.takeRight (h : Merging key g₀ l m r g i j k) (hi : i ≤ m) (hj : j ≤ r)
    (hcmp : key (g.R.cell i) > key (g.R.cell j)) (hlen : tmp.length = g.tmp.length)
    (htmp : tmp.cell = Function.update g.tmp.cell k (g.R.cell j)) :
    Merging key g₀ l m r { g with tmp := tmp, ans := toInt32 (g.ans + (m - i + l)) }
      i (j + 1) (k + 1) := by
  obtain ⟨hb, hlen₀, hR, hli, him, hmj, hjr, hk, hmerged, hcounted⟩ := h
  obtain ⟨hl, hlm, hmr, hltR, hlttmp⟩ := id hb
  rw [hR] at hcmp htmp
  have hx := Cells.segment_cons (s := g₀.R) (l := i) (r := m) (by omega) hi (by omega)
  have hy := Cells.segment_cons (s := g₀.R) (l := j) (r := r) (by omega) hj hltR
  have hxs : ((g₀.R.segment (i + 1) m).length : ℤ) = m - i := by
    rw [Cells.length_segment (by omega) (by omega)]
    omega
  refine ⟨hb, hlen.trans hlen₀, hR, hli, him, by omega, by omega, by omega, ?_, ?_⟩
  · rw [merge_segment_right (by omega) hi (by omega) (by omega) hj hltR hcmp] at hmerged
    rw [add_sub_cancel_right, Cells.segment_store hl (by omega) (by omega) hlen htmp,
      List.append_assoc, List.singleton_append]
    exact hmerged
  · have hadd : addJump l g.ans ((g₀.R.segment (i + 1) m).length + 1)
        = toInt32 (g.ans + (m - i + l)) := by
      rw [addJump, Nat.cast_add, hxs]
      congr 1
      push_cast
      ring
    rw [hx, hy, jumps, if_neg (not_le.mpr hcmp), List.foldl_cons, hadd, ← hx] at hcounted
    exact hcounted

/-- The entry of the left half goes first. -/
lemma Merging.takeLeft (h : Merging key g₀ l m r g i j k) (hi : i ≤ m) (hj : j ≤ r)
    (hcmp : ¬ key (g.R.cell i) > key (g.R.cell j)) (hlen : tmp.length = g.tmp.length)
    (htmp : tmp.cell = Function.update g.tmp.cell k (g.R.cell i)) :
    Merging key g₀ l m r { g with tmp := tmp } (i + 1) j (k + 1) := by
  obtain ⟨hb, hlen₀, hR, hli, him, hmj, hjr, hk, hmerged, hcounted⟩ := h
  obtain ⟨hl, hlm, hmr, hltR, hlttmp⟩ := id hb
  rw [hR] at hcmp htmp
  have hx := Cells.segment_cons (s := g₀.R) (l := i) (r := m) (by omega) hi (by omega)
  have hy := Cells.segment_cons (s := g₀.R) (l := j) (r := r) (by omega) hj hltR
  refine ⟨hb, hlen.trans hlen₀, hR, by omega, by omega, hmj, hjr, by omega, ?_, ?_⟩
  · rw [merge_segment_left (by omega) hi (by omega) (by omega) hj hltR (not_lt.mp hcmp)] at hmerged
    rw [add_sub_cancel_right, Cells.segment_store hl (by omega) (by omega) hlen htmp,
      List.append_assoc, List.singleton_append]
    exact hmerged
  · rw [hx, hy, jumps, if_pos (not_lt.mp hcmp), ← hy] at hcounted
    exact hcounted

/-- The loop ends when one of the halves is used up. -/
lemma mergeLoop_ends (h : InArrays g l m r) :
    Ends (fun fuel => mergeLoop key l m r fuel (g, l, m + 1, l)) fun s =>
      Merging key g l m r s.1 s.2.1 s.2.2.1 s.2.2.2 ∧ (m < s.2.1 ∨ r < s.2.2.1) := by
  refine Ends.whileLoop (I := fun s => Merging key g l m r s.1 s.2.1 s.2.2.1 s.2.2.2)
    (fun s => (m + 1 - s.2.1).toNat + (r + 1 - s.2.2.1).toNat) (fun s hs => ?_) (.start h)
  obtain ⟨g', i, j, k⟩ := s
  dsimp only at hs ⊢
  obtain ⟨hl, hlm, hmr, hltR, hlttmp⟩ := h
  have hR := hs.R_eq
  have hlen := hs.tmp_length
  have hli := hs.le_i
  have hmj := hs.le_j
  have hk := hs.k_eq
  by_cases hij : i ≤ m ∧ j ≤ r
  · obtain ⟨hi, hj⟩ := hij
    refine Or.inl ⟨by simp [hi, hj], ?_⟩
    refine Ends.load (by omega) (by rw [hR]; omega) (Ends.load (by omega) (by rw [hR]; omega) ?_)
    by_cases hcmp : key (g'.R.cell i) > key (g'.R.cell j)
    · simp only [if_pos hcmp]
      refine Ends.load (by omega) (by rw [hR]; omega)
        (Ends.store (by omega) (by omega) fun tmp hlen' htmp => ?_)
      refine .of_eq (fun _ => rfl) ⟨hs.takeRight hi hj hcmp hlen' htmp, ?_⟩
      dsimp only
      omega
    · simp only [if_neg hcmp]
      refine Ends.load (by omega) (by rw [hR]; omega)
        (Ends.store (by omega) (by omega) fun tmp hlen' htmp => ?_)
      refine .of_eq (fun _ => rfl) ⟨hs.takeLeft hi hj hcmp hlen' htmp, ?_⟩
      dsimp only
      omega
  · refine Or.inr ⟨by simpa using fun hi => not_le.mp fun hj => hij ⟨hi, hj⟩, hs, ?_⟩
    omega

/-- What is left of a half is copied behind what is in `tmp`. -/
lemma copyRest_ends (hl : 0 ≤ l) (hlk : l ≤ k) (hi : 0 ≤ i) (hstop : i ≤ stop + 1)
    (hR : stop < g.R.length) (htmp : k + (stop - i) < g.tmp.length) :
    Ends (fun fuel => copyRest stop fuel (g, i, k)) fun s => s.1.R = g.R ∧ s.1.ans = g.ans
      ∧ s.1.tmp.length = g.tmp.length ∧ s.2.2 = k + (stop + 1 - i)
      ∧ s.1.tmp.segment l (s.2.2 - 1) = g.tmp.segment l (k - 1) ++ g.R.segment i stop := by
  refine Ends.whileLoop
    (I := fun s => s.1.R = g.R ∧ s.1.ans = g.ans ∧ s.1.tmp.length = g.tmp.length
      ∧ i ≤ s.2.1 ∧ s.2.1 ≤ stop + 1 ∧ s.2.2 = k + (s.2.1 - i)
      ∧ s.1.tmp.segment l (s.2.2 - 1) ++ g.R.segment s.2.1 stop
        = g.tmp.segment l (k - 1) ++ g.R.segment i stop)
    (fun s => (stop + 1 - s.2.1).toNat) (fun s hs => ?_)
    ⟨rfl, rfl, rfl, le_rfl, hstop, by dsimp only; omega, rfl⟩
  obtain ⟨g', i', k'⟩ := s
  obtain ⟨hR', hans, hlen, hle, hle', hk', hsegment⟩ := hs
  dsimp only at *
  by_cases hi' : i' ≤ stop
  · refine Or.inl ⟨by simp [hi'], Ends.load (by omega) (by rw [hR']; omega)
      (Ends.store (by omega) (by omega) fun tmp hlen' htmp' => ?_)⟩
    refine .of_eq (fun _ => rfl) ⟨⟨hR', hans, hlen'.trans hlen, ?_, ?_, ?_, ?_⟩, ?_⟩ <;> dsimp only
    · omega
    · omega
    · omega
    · rw [Cells.segment_cons (by omega) hi' (by omega), ← hR'] at hsegment
      rw [add_sub_cancel_right, Cells.segment_store hl (by omega) (by omega) hlen' htmp',
        List.append_assoc, List.singleton_append, ← hR']
      exact hsegment
    · omega
  · refine Or.inr ⟨by simp [hi'], hR', hans, hlen, by omega, ?_⟩
    rw [Cells.segment_of_lt (show stop < i' by omega), List.append_nil] at hsegment
    exact hsegment

/-- The range is copied back. -/
lemma copyBack_ends (hl : 0 ≤ l) (hlr : l ≤ r + 1) (hR : r < g.R.length) (htmp : r < g.tmp.length) :
    Ends (fun fuel => copyBack r fuel (g, l)) fun s => s.1.tmp = g.tmp ∧ s.1.ans = g.ans
      ∧ s.1.R.length = g.R.length ∧ s.1.R.segment l r = g.tmp.segment l r
      ∧ ∀ i, i ∉ Set.Icc l r → s.1.R.load i = g.R.load i := by
  refine Ends.whileLoop
    (I := fun s => s.1.tmp = g.tmp ∧ s.1.ans = g.ans ∧ s.1.R.length = g.R.length
      ∧ l ≤ s.2 ∧ s.2 ≤ r + 1 ∧ s.1.R.segment l (s.2 - 1) = g.tmp.segment l (s.2 - 1)
      ∧ ∀ i, i ∉ Set.Icc l r → s.1.R.load i = g.R.load i)
    (fun s => (r + 1 - s.2).toNat) (fun s hs => ?_)
    ⟨rfl, rfl, rfl, le_rfl, hlr, ?_, fun _ _ => rfl⟩
  · obtain ⟨g', i⟩ := s
    obtain ⟨htmp', hans, hlen, hle, hle', hsegment, hframe⟩ := hs
    dsimp only at *
    by_cases hi : i ≤ r
    · refine Or.inl ⟨by simp [hi], Ends.load (by omega) (by rw [htmp']; omega)
        (Ends.store (by omega) (by omega) fun R hlen' hR' => ?_)⟩
      refine .of_eq (fun _ => rfl)
        ⟨⟨htmp', hans, hlen'.trans hlen, by dsimp only; omega, by dsimp only; omega, ?_, ?_⟩, ?_⟩
        <;> dsimp only
      · rw [add_sub_cancel_right, Cells.segment_store hl hle (by omega) hlen' hR', hsegment, htmp']
        exact (Cells.segment_store hl hle (by omega) rfl (Function.update_eq_self _ _).symm).symm
      · intro n hn
        refine (Cells.load_eq_of_cell hlen' ?_).trans (hframe n hn)
        rw [hR', Function.update_of_ne]
        rintro rfl
        exact hn ⟨hle, hi⟩
      · omega
    · refine Or.inr ⟨by simp [hi], htmp', hans, hlen, ?_, hframe⟩
      rwa [show i - 1 = r by omega] at hsegment
  · rw [Cells.segment_of_lt (by dsimp only; omega), Cells.segment_of_lt (by dsimp only; omega)]

/-- **`Merge`**: the range becomes the merge of its halves, and `ans` counts the jumps. -/
lemma merge_ends (h : InArrays g l m r) :
    Ends (fun fuel => merge key fuel g l m r) fun g' => g'.tmp.length = g.tmp.length
      ∧ g'.R.length = g.R.length
      ∧ g'.R.segment l r
        = (g.R.segment l m).merge (g.R.segment (m + 1) r) (keyLe key)
      ∧ g'.ans = (jumps key (g.R.segment l m) (g.R.segment (m + 1) r)).foldl (addJump l) g.ans
      ∧ ∀ i, i ∉ Set.Icc l r → g'.R.load i = g.R.load i := by
  refine (mergeLoop_ends h).bind fun ⟨g₁, i, j, k⟩ ⟨h₁, hend⟩ => ?_
  dsimp only at h₁ hend ⊢
  obtain ⟨hsegment, hcount⟩ := h₁.rest hend
  obtain ⟨⟨hl, hlm, hmr, hltR, hlttmp⟩, hlen₁, hR₁, hli, him, hmj, hjr, hk, -, -⟩ := h₁
  refine (copyRest_ends (l := l) hl (by omega) (by omega) him (by rw [hR₁]; omega)
    (by omega)).bind fun ⟨g₂, i₂, k₂⟩ ⟨hR₂, hans₂, hlen₂, hk₂, hseg₂⟩ => ?_
  dsimp only at hR₂ hans₂ hlen₂ hk₂ hseg₂ ⊢
  refine (copyRest_ends (l := l) hl (by omega) (by omega) hjr (by rw [hR₂, hR₁]; omega)
    (by omega)).bind fun ⟨g₃, i₃, k₃⟩ ⟨hR₃, hans₃, hlen₃, hk₃, hseg₃⟩ => ?_
  dsimp only at hR₃ hans₃ hlen₃ hk₃ hseg₃ ⊢
  have hR : g₃.R = g.R := hR₃.trans (hR₂.trans hR₁)
  refine (copyBack_ends hl (by omega) (by rw [hR]; omega) (by omega)).bind
    fun ⟨g₄, i₄⟩ ⟨htmp₄, hans₄, hlen₄, hseg₄, hframe⟩ => ?_
  dsimp only at htmp₄ hans₄ hlen₄ hseg₄ hframe ⊢
  refine .of_eq (fun _ => rfl) ⟨by rw [htmp₄]; omega, by rw [hlen₄, hR], ?_, ?_, ?_⟩
  · have hlast : k₃ - 1 = r := by omega
    rw [hlast] at hseg₃
    calc g₄.R.segment l r
        = g₃.tmp.segment l r := hseg₄
      _ = g₂.tmp.segment l (k₂ - 1) ++ g.R.segment j r := by rw [hseg₃, hR₂, hR₁]
      _ = g₁.tmp.segment l (k - 1) ++ g.R.segment i m ++ g.R.segment j r := by rw [hseg₂, hR₁]
      _ = (g.R.segment l m).merge (g.R.segment (m + 1) r) (keyLe key) := hsegment
  · rw [hans₄, hans₃, hans₂, hcount]
  · intro n hn
    rw [hframe n hn, hR]

end Merge

/-! ### `MergeSort` -/

/-- What `MergeSort(l, r)` adds to `ans`, one after the other. -/
def addends {α : Type} (key : α → ℤ) (R : Cells α) (l r : ℤ) : List ℤ :=
  if l < r then
    addends key R l ((l + r) / 2) ++ addends key R ((l + r) / 2 + 1) r
      ++ (jumps key ((R.segment l ((l + r) / 2)).mergeSort (keyLe key))
        ((R.segment ((l + r) / 2 + 1) r).mergeSort (keyLe key))).map fun c : ℕ => (c : ℤ) + (l - 1)
  else []
termination_by (r - l).toNat

section MergeSort

variable {α : Type} {key : α → ℤ} {g : Globals α} {R R' : Cells α} {l m r : ℤ}

lemma addends_of_lt (h : l < r) : addends key R l r
    = addends key R l ((l + r) / 2) ++ addends key R ((l + r) / 2 + 1) r
      ++ (jumps key ((R.segment l ((l + r) / 2)).mergeSort (keyLe key))
        ((R.segment ((l + r) / 2 + 1) r).mergeSort (keyLe key))).map
          fun c : ℕ => (c : ℤ) + (l - 1) := by
  rw [addends, if_pos h]

lemma addends_of_le (h : r ≤ l) : addends key R l r = [] := by
  rw [addends, if_neg (by omega)]

/-- Only the cells of the range matter. -/
lemma addends_congr (h : ∀ a b, l ≤ a → b ≤ r → R'.segment a b = R.segment a b) :
    addends key R' l r = addends key R l r := by
  induction hn : (r - l).toNat using Nat.strong_induction_on generalizing l r with
  | _ n ih =>
      by_cases hlt : l < r
      · rw [addends_of_lt hlt, addends_of_lt hlt,
          ih _ (by omega) (fun a b ha hb => h a b ha (by omega)) rfl,
          ih _ (by omega) (fun a b ha hb => h a b (by omega) hb) rfl, h l _ le_rfl (by omega),
          h _ r (by omega) le_rfl]
      · rw [addends_of_le (by omega), addends_of_le (by omega)]

variable [Inhabited α]

/-- **`MergeSort`**: the range is sorted as a list, and `ans` gets its addends. -/
lemma mergeSort_ends (hl : 0 ≤ l) (hr : r < g.R.length) (htmp : r < g.tmp.length) :
    Ends (fun fuel => mergeSort key fuel g l r) fun g' => g'.tmp.length = g.tmp.length
      ∧ g'.R.length = g.R.length
      ∧ g'.R.segment l r = (g.R.segment l r).mergeSort (keyLe key)
      ∧ g'.ans = (addends key g.R l r).foldl (fun ans d => toInt32 (ans + d)) g.ans
      ∧ ∀ i, i ∉ Set.Icc l r → g'.R.load i = g.R.load i := by
  induction hn : (r - l).toNat using Nat.strong_induction_on generalizing g l r with
  | _ n ih =>
      refine Ends.of_succ ?_
      simp only [mergeSort]
      by_cases hlt : l < r
      · have hm : (l + r) >>> (1 : ℕ) = (l + r) / 2 := Int.shiftRight_eq_div_pow _ 1
        simp only [if_pos hlt, hm]
        set m := (l + r) / 2 with hmdef
        refine (ih _ (by omega) hl (by omega) (by omega) rfl).bind
          fun g₁ ⟨htmp₁, hR₁, hseg₁, hans₁, hframe₁⟩ => ?_
        refine (ih _ (by omega) (by omega) (by omega) (by omega) rfl).bind
          fun g₂ ⟨htmp₂, hR₂, hseg₂, hans₂, hframe₂⟩ => ?_
        -- neither half touches the other one
        have hright : ∀ a b, m + 1 ≤ a → b ≤ r → g₁.R.segment a b = g.R.segment a b := by
          intro a b ha hb
          refine Cells.segment_congr (by omega) (by omega) (by omega) fun k hk _ => ?_
          exact Cells.cell_eq_of_load (hframe₁ k fun hmem => by have := hmem.2; omega)
        have hleft : g₂.R.segment l m = g₁.R.segment l m := by
          refine Cells.segment_congr hl (by omega) (by omega) fun k _ hk => ?_
          exact Cells.cell_eq_of_load (hframe₂ k fun hmem => by have := hmem.1; omega)
        refine (merge_ends ⟨hl, by omega, by omega, by omega, by omega⟩).mono
          fun g₃ ⟨htmp₃, hR₃, hseg₃, hans₃, hframe₃⟩ => ?_
        rw [hleft, hseg₁, hseg₂, hright _ _ le_rfl le_rfl] at hseg₃ hans₃
        refine ⟨by omega, by omega, ?_, ?_, fun i hi => ?_⟩
        · rw [hseg₃, mergeSort_segment _ hl hlt hr hmdef]
        · rw [hans₃, hans₂, hans₁, addends_congr hright, addends_of_lt hlt, List.foldl_append,
            List.foldl_append, List.foldl_map]
          rfl
        · have hi₁ : i ∉ Set.Icc l m := fun hmem => hi ⟨hmem.1, by have := hmem.2; omega⟩
          have hi₂ : i ∉ Set.Icc (m + 1) r := fun hmem => hi ⟨by have := hmem.1; omega, hmem.2⟩
          calc g₃.R.load i
              = g₂.R.load i := hframe₃ i hi
            _ = g₁.R.load i := hframe₂ i hi₂
            _ = g.R.load i := hframe₁ i hi₁
      · simp only [if_neg hlt]
        refine .of_eq (fun _ => rfl) ⟨rfl, rfl, ?_, ?_, fun _ _ => rfl⟩
        · rcases (not_lt.mp hlt).lt_or_eq with hlt' | rfl
          · rw [Cells.segment_of_lt hlt', List.mergeSort_nil]
          · rw [Cells.segment_cons hl le_rfl hr, Cells.segment_of_lt (by omega),
              List.mergeSort_singleton]
        · rw [addends_of_le (not_lt.mp hlt), List.foldl_nil]

end MergeSort

/-- **Merge sort**: `MergeSort(l, r)` returns, with the entries of the range in ascending order of
their keys, those with equal keys in their original order, and nothing else of `R` changed. -/
theorem mergeSort_stable {α : Type} (key : α → ℤ) {g : Globals α} {l r : ℤ} (hg : g.Sized)
    (hl : 0 ≤ l) (hr : r < arraySize) :
    ∃ g', Returns (fun fuel => mergeSort key fuel g l r) g' ∧ g'.Sized
      ∧ StablySorted key (g.R.segment l r) (g'.R.segment l r)
      ∧ ∀ i, i ∉ Set.Icc l r → g'.R.load i = g.R.load i := by
  obtain ⟨htmp, hR⟩ := hg
  obtain ⟨x, -⟩ : ∃ x, x ∈ g.R := List.exists_mem_of_length_pos (by rw [hR, arraySize]; decide)
  have : Inhabited α := ⟨x⟩
  obtain ⟨g', hret : Returns (fun fuel => mergeSort key fuel g l r) g', htmp', hR', hsegment, -,
    hframe⟩ := mergeSort_ends hl (by omega : r < (g.R.length : ℤ)) (by omega)
  refine ⟨g', hret, ⟨htmp'.trans htmp, hR'.trans hR⟩, ?_, hframe⟩
  rw [hsegment]
  exact stablySorted_mergeSort key _

/-- The theorem for three records of two keys. -/
theorem mergeSort_stable_three :
    ∃ g', Returns (fun fuel => mergeSort (fun x : ℤ × ℤ => x.1) fuel
        ⟨.replicate 100010 (0, 0), [(2, 1), (1, 2), (2, 3)] ++ .replicate 100007 (0, 0), 0⟩ 0 2) g'
      ∧ g'.Sized
      ∧ StablySorted (fun x : ℤ × ℤ => x.1)
        (Cells.segment ([(2, 1), (1, 2), (2, 3)] ++ .replicate 100007 (0, 0)) 0 2)
        (g'.R.segment 0 2)
      ∧ ∀ i, i ∉ Set.Icc (0 : ℤ) 2 → g'.R.load i
        = Cells.load ([(2, 1), (1, 2), (2, 3)] ++ .replicate 100007 (0, 0)) i :=
  mergeSort_stable _ ⟨List.length_replicate, by
    rw [List.length_append, List.length_replicate]
    rfl⟩ (by decide) (by decide)

end Wgs.Sorting
