import Wgs.Foundation.Cells

/-!
`QuickSort` of `C/huawei/paixu.c`, and `qusort` of `C/kuaishupaixu.c`, which is the same routine.

The value of the first cell of the range is kept in `s[0]`, which leaves a hole; the two inner
loops find a value that belongs into the hole and leave one where it was, in turn on the right and
on the left (`Parted`).  Both bounds of a call stay within the array, so no index overflows.

A call sorts its range and touches nothing else than `s[0]`; so does every call that it leads to
(`quickSort_sorts`).
-/

namespace Wgs.Sorting

open Foundation

/-! ### The program -/

/-- `while (i < j && s[0] < s[j]) j--;` -/
def scanDown (s : Cells ℤ) (i : ℤ) : ℕ → ℤ → Option ℤ :=
  whileLoop
    (fun j => do if i < j then return (← s.load 0) < (← s.load j) else return false)
    (fun _ j => return j - 1)

/-- `while (i < j && s[i] <= s[0]) i++;` -/
def scanUp (s : Cells ℤ) (j : ℤ) : ℕ → ℤ → Option ℤ :=
  whileLoop
    (fun i => do if i < j then return (← s.load i) ≤ (← s.load 0) else return false)
    (fun _ i => return i + 1)

/-- `if (i < j) { s[i] = s[j]; i++; }` -/
def fillLeft (s : Cells ℤ) (i j : ℤ) : Option (Cells ℤ × ℤ) := do
  if i < j then return (← s.store i (← s.load j), i + 1) else return (s, i)

/-- `if (i < j) { s[j] = s[i]; j--; }` -/
def fillRight (s : Cells ℤ) (i j : ℤ) : Option (Cells ℤ × ℤ) := do
  if i < j then return (← s.store j (← s.load i), j - 1) else return (s, j)

/-- `while (i < j) { … }` -/
def partitionLoop : ℕ → Cells ℤ × ℤ × ℤ → Option (Cells ℤ × ℤ × ℤ) :=
  whileLoop
    (fun (_, i, j) => return i < j)
    (fun fuel (s, i, j) => do
      let j ← scanDown s i fuel j
      let (s, i) ← fillLeft s i j
      let i ← scanUp s j fuel i
      let (s, j) ← fillRight s i j
      return (s, i, j))

/-- `QuickSort` up to its recursive calls. -/
def quickSplit (fuel : ℕ) (s : Cells ℤ) (start stop : ℤ) : Option (Cells ℤ × ℤ × ℤ) := do
  let i := start
  let j := stop
  let s ← s.store 0 (← s.load i)
  let (s, i, j) ← partitionLoop fuel (s, i, j)
  let s ← s.store i (← s.load 0)
  return (s, i, j)

/-- `QuickSort` of `C/huawei/paixu.c`; `stop` is its `end`. -/
def quickSort : ℕ → Cells ℤ → ℤ → ℤ → Option (Cells ℤ)
  | 0, _, _, _ => none
  | fuel + 1, s, start, stop => do
      let (s, i, j) ← quickSplit fuel s start stop
      let s ← (if start < i then quickSort fuel s start (j - 1) else return s)
      if i < stop then quickSort fuel s (j + 1) stop else return s

/-- `qusort` of `C/kuaishupaixu.c`. -/
def qusort : ℕ → Cells ℤ → ℤ → ℤ → Option (Cells ℤ) := quickSort

/-- The calls that a call of `quickSort` leads to, itself among them: each with the array, the
start and the end of the range. -/
inductive QuickCalls : Cells ℤ × ℤ × ℤ → Cells ℤ × ℤ × ℤ → Prop where
  | self (c : Cells ℤ × ℤ × ℤ) : QuickCalls c c
  | left {s t : Cells ℤ} {start stop i j : ℤ} {c : Cells ℤ × ℤ × ℤ} :
      Returns (fun fuel => quickSplit fuel s start stop) (t, i, j) → start < i →
      QuickCalls (t, start, j - 1) c → QuickCalls (s, start, stop) c
  | right {s t u : Cells ℤ} {start stop i j : ℤ} {c : Cells ℤ × ℤ × ℤ} :
      Returns (fun fuel => quickSplit fuel s start stop) (t, i, j) →
      Returns (fun fuel => if start < i then quickSort fuel t start (j - 1) else some t) u →
      i < stop → QuickCalls (u, j + 1, stop) c → QuickCalls (s, start, stop) c

/-! ### The scans -/

section Scans

variable {s : Cells ℤ} {i j : ℤ}

lemma scanDown_ends (hi : 0 ≤ i) (hij : i ≤ j) (hj : j < s.length) :
    Ends (fun fuel => scanDown s i fuel j) fun j' => i ≤ j' ∧ j' ≤ j
      ∧ (∀ k, j' < k → k ≤ j → s.cell 0 < s.cell k) ∧ (i < j' → s.cell j' ≤ s.cell 0) := by
  refine Ends.whileLoop
    (I := fun j' => i ≤ j' ∧ j' ≤ j ∧ ∀ k, j' < k → k ≤ j → s.cell 0 < s.cell k)
    (fun j' => (j' - i).toNat) (fun j' hj' => ?_) ⟨hij, le_rfl, fun k _ _ => by omega⟩
  obtain ⟨hle, hle', hgt⟩ := hj'
  by_cases hlt : i < j'
  · rw [if_pos hlt, Cells.load_eq le_rfl (by omega), Cells.load_eq (by omega) (by omega)]
    by_cases hcmp : s.cell 0 < s.cell j'
    · refine Or.inl ⟨by simp [hcmp], .of_eq (fun _ => rfl) ⟨⟨by omega, by omega, ?_⟩, by omega⟩⟩
      intro k hk hkj
      rcases eq_or_ne k j' with rfl | hne
      · exact hcmp
      · exact hgt k (by omega) hkj
    · exact Or.inr ⟨by simp [hcmp], hle, hle', hgt, fun _ => by omega⟩
  · exact Or.inr ⟨by simp [hlt], hle, hle', hgt, fun h => absurd h hlt⟩

lemma scanUp_ends (hi : 0 ≤ i) (hij : i ≤ j) (hj : j < s.length) :
    Ends (fun fuel => scanUp s j fuel i) fun i' => i ≤ i' ∧ i' ≤ j
      ∧ (∀ k, i ≤ k → k < i' → s.cell k ≤ s.cell 0) ∧ (i' < j → s.cell 0 < s.cell i') := by
  refine Ends.whileLoop
    (I := fun i' => i ≤ i' ∧ i' ≤ j ∧ ∀ k, i ≤ k → k < i' → s.cell k ≤ s.cell 0)
    (fun i' => (j - i').toNat) (fun i' hi' => ?_) ⟨le_rfl, hij, fun k _ _ => by omega⟩
  obtain ⟨hle, hle', hlow⟩ := hi'
  by_cases hlt : i' < j
  · rw [if_pos hlt, Cells.load_eq (by omega) (by omega), Cells.load_eq le_rfl (by omega)]
    by_cases hcmp : s.cell i' ≤ s.cell 0
    · refine Or.inl ⟨by simp [hcmp], .of_eq (fun _ => rfl) ⟨⟨by omega, by omega, ?_⟩, by omega⟩⟩
      intro k hk hki
      rcases eq_or_ne k i' with rfl | hne
      · exact hcmp
      · exact hlow k hk (by omega)
    · exact Or.inr ⟨by simp [hcmp], hle, hle', hlow, fun _ => by omega⟩
  · exact Or.inr ⟨by simp [hlt], hle, hle', hlow, fun h => absurd h hlt⟩

end Scans

/-! ### The partition -/

/-- The array while the range is partitioned, with a hole that the pivot belongs into: what is left
of `i` is at most the pivot, what is right of `j` is above it. -/
structure Parted (s₀ : Cells ℤ) (start stop hole : ℤ) (s : Cells ℤ) (i j : ℤ) : Prop where
  one_le : 1 ≤ start
  lt_length : stop < s₀.length
  length_eq : s.length = s₀.length
  start_le : start ≤ i
  le : i ≤ j
  le_stop : j ≤ stop
  pivot : s.cell 0 = s₀.cell start
  rearranges : Rearranges (Set.Icc start stop) (Function.update s₀.cell 0 (s₀.cell start))
    (Function.update s.cell hole (s₀.cell start))
  low : ∀ k, start ≤ k → k < i → s.cell k ≤ s₀.cell start
  high : ∀ k, j < k → k ≤ stop → s₀.cell start < s.cell k

namespace Parted

variable {s₀ s : Cells ℤ} {start stop i j : ℤ}

lemma scanDown (h : Parted s₀ start stop i s i j) :
    Ends (fun fuel => Sorting.scanDown s i fuel j) fun j' => j' ≤ j
      ∧ Parted s₀ start stop i s i j' ∧ (i < j' → s.cell j' ≤ s₀.cell start) := by
  obtain ⟨h₁, hlen, heq, hstart, hij, hstop, hpivot, hrearr, hlow, hhigh⟩ := h
  refine (scanDown_ends (by omega) hij (by omega)).mono fun j' ⟨hle, hle', hgt, hcell⟩ => ?_
  rw [hpivot] at hgt hcell
  refine ⟨hle', ⟨h₁, hlen, heq, hstart, hle, by omega, hpivot, hrearr, hlow, ?_⟩, hcell⟩
  intro k hk hk'
  rcases le_or_gt k j with hkj | hkj
  · exact hgt k hk hkj
  · exact hhigh k hkj hk'

lemma scanUp (h : Parted s₀ start stop j s i j) :
    Ends (fun fuel => Sorting.scanUp s j fuel i) fun i' => i ≤ i'
      ∧ Parted s₀ start stop j s i' j ∧ (i' < j → s₀.cell start < s.cell i') := by
  obtain ⟨h₁, hlen, heq, hstart, hij, hstop, hpivot, hrearr, hlow, hhigh⟩ := h
  refine (scanUp_ends (by omega) hij (by omega)).mono fun i' ⟨hle, hle', hlow', hcell⟩ => ?_
  rw [hpivot] at hlow' hcell
  refine ⟨hle, ⟨h₁, hlen, heq, by omega, hle', hstop, hpivot, hrearr, ?_, hhigh⟩, hcell⟩
  intro k hk hk'
  rcases lt_or_ge k i with hki | hki
  · exact hlow k hk hki
  · exact hlow' k hki hk'

/-- The hole moves from `i` to `j`. -/
lemma fillLeft (h : Parted s₀ start stop i s i j) (hcell : i < j → s.cell j ≤ s₀.cell start) :
    Ends (fun _ => Sorting.fillLeft s i j) fun r => i ≤ r.2 ∧ (i < j → i < r.2)
      ∧ Parted s₀ start stop j r.1 r.2 j := by
  obtain ⟨h₁, hlen, heq, hstart, hij, hstop, hpivot, hrearr, hlow, hhigh⟩ := h
  rw [Sorting.fillLeft]
  rcases hij.lt_or_eq with hlt | rfl
  · rw [if_pos hlt]
    refine Ends.load (by omega) (by omega) (Ends.store (by omega) (by omega) fun s' hlen' hs' => ?_)
    refine .of_eq (fun _ => rfl) ⟨by dsimp only; omega, fun _ => by dsimp only; omega, ?_⟩
    refine ⟨h₁, hlen, hlen'.trans heq, ?_, ?_, hstop, ?_, ?_, ?_, ?_⟩ <;> dsimp only
    · omega
    · omega
    · rw [hs', Function.update_of_ne (by omega), hpivot]
    · rw [hs']
      exact hrearr.move_hole ⟨hstart, by omega⟩ ⟨by omega, hstop⟩ (by omega)
    · intro k hk hk'
      rw [hs']
      rcases eq_or_ne k i with rfl | hne
      · rw [Function.update_self]
        exact hcell hlt
      · rw [Function.update_of_ne hne]
        exact hlow k hk (by omega)
    · intro k hk hk'
      rw [hs', Function.update_of_ne (by omega)]
      exact hhigh k hk hk'
  · rw [if_neg (lt_irrefl i)]
    exact .of_eq (fun _ => rfl) ⟨le_rfl, fun hlt => absurd hlt (lt_irrefl i),
      h₁, hlen, heq, hstart, le_rfl, hstop, hpivot, hrearr, hlow, hhigh⟩

/-- The hole moves from `j` to `i`. -/
lemma fillRight (h : Parted s₀ start stop j s i j) (hcell : i < j → s₀.cell start < s.cell i) :
    Ends (fun _ => Sorting.fillRight s i j) fun r => r.2 ≤ j
      ∧ Parted s₀ start stop i r.1 i r.2 := by
  obtain ⟨h₁, hlen, heq, hstart, hij, hstop, hpivot, hrearr, hlow, hhigh⟩ := h
  rw [Sorting.fillRight]
  rcases hij.lt_or_eq with hlt | rfl
  · rw [if_pos hlt]
    refine Ends.load (by omega) (by omega) (Ends.store (by omega) (by omega) fun s' hlen' hs' => ?_)
    refine .of_eq (fun _ => rfl) ⟨by dsimp only; omega, ?_⟩
    refine ⟨h₁, hlen, hlen'.trans heq, hstart, ?_, ?_, ?_, ?_, ?_, ?_⟩ <;> dsimp only
    · omega
    · omega
    · rw [hs', Function.update_of_ne (by omega), hpivot]
    · rw [hs']
      exact hrearr.move_hole ⟨by omega, hstop⟩ ⟨hstart, by omega⟩ (by omega)
    · intro k hk hk'
      rw [hs', Function.update_of_ne (by omega)]
      exact hlow k hk hk'
    · intro k hk hk'
      rw [hs']
      rcases eq_or_ne k j with rfl | hne
      · rw [Function.update_self]
        exact hcell hlt
      · rw [Function.update_of_ne hne]
        exact hhigh k (by omega) hk'
  · rw [if_neg (lt_irrefl i)]
    exact .of_eq (fun _ => rfl) ⟨le_rfl, h₁, hlen, heq, hstart, le_rfl, hstop, hpivot, hrearr,
      hlow, hhigh⟩

/-- The bounds meet. -/
lemma partitionLoop (h : Parted s₀ start stop i s i j) :
    Ends (fun fuel => Sorting.partitionLoop fuel (s, i, j)) fun r => r.2.1 = r.2.2
      ∧ Parted s₀ start stop r.2.1 r.1 r.2.1 r.2.2 := by
  refine Ends.whileLoop (I := fun r => Parted s₀ start stop r.2.1 r.1 r.2.1 r.2.2)
    (fun r => (r.2.2 - r.2.1).toNat) (fun r hr => ?_) h
  obtain ⟨s, i, j⟩ := r
  by_cases hlt : i < j
  · refine Or.inl ⟨by simp [hlt], ?_⟩
    refine hr.scanDown.bind fun j₁ ⟨hj₁, hr₁, hcell₁⟩ => ?_
    refine (hr₁.fillLeft hcell₁).bind fun ⟨s₂, i₂⟩ ⟨hi₂, hlt₂, hr₂⟩ => ?_
    refine hr₂.scanUp.bind fun i₃ ⟨hi₃, hr₃, hcell₃⟩ => ?_
    refine (hr₃.fillRight hcell₃).bind fun ⟨s₄, j₄⟩ ⟨hj₄, hr₄⟩ => ?_
    refine .of_eq (fun _ => rfl) ⟨hr₄, ?_⟩
    have hle₁ := hr₁.le
    dsimp only at *
    omega
  · refine Or.inr ⟨by simp [hlt], ?_, hr⟩
    have hle := hr.le
    dsimp only at *
    omega

end Parted

/-- The range partitioned: the pivot is in its place. -/
structure Split (s : Cells ℤ) (start stop : ℤ) (t : Cells ℤ) (i : ℤ) : Prop where
  length_eq : t.length = s.length
  start_le : start ≤ i
  le_stop : i ≤ stop
  rearranges : RearrangesPast 0 (Set.Icc start stop) s.cell t.cell
  low : ∀ k, start ≤ k → k < i → t.cell k ≤ t.cell i
  high : ∀ k, i < k → k ≤ stop → t.cell i < t.cell k

section Sorts

variable {s t u w : Cells ℤ} {start stop i : ℤ}

lemma quickSplit_ends (h₁ : 1 ≤ start) (hle : start ≤ stop) (hstop : stop < s.length) :
    Ends (fun fuel => quickSplit fuel s start stop) fun r => r.2.1 = r.2.2
      ∧ Split s start stop r.1 r.2.1 := by
  simp only [quickSplit]
  refine Ends.load (by omega) (by omega) (Ends.store le_rfl (by omega) fun t hlen ht => ?_)
  have hparted : Parted s start stop start t start stop := by
    refine ⟨h₁, hstop, hlen, le_rfl, hle, le_rfl, ?_, ?_, fun k _ _ => by omega,
      fun k _ _ => by omega⟩
    · rw [ht, Function.update_self]
    · rw [ht, Function.update_eq_self_iff.mpr (Function.update_of_ne (by omega) _ _).symm]
      exact .refl _ _
  refine hparted.partitionLoop.bind fun ⟨u, i, j⟩ ⟨hij, hu⟩ => ?_
  obtain ⟨-, -, hlen', hstart, -, hstop', hpivot, hrearr, hlow, hhigh⟩ := hu
  dsimp only at *
  refine Ends.load le_rfl (by omega) (Ends.store (by omega) (by omega) fun w hlen'' hw => ?_)
  rw [hpivot] at hw
  refine .of_eq (fun _ => rfl) ⟨hij, ?_⟩
  refine ⟨hlen''.trans (hlen'.trans rfl), hstart, ?_, ⟨_, hw ▸ hrearr⟩, ?_, ?_⟩ <;> dsimp only
  · omega
  · intro k hk hk'
    rw [hw, Function.update_self, Function.update_of_ne (by omega)]
    exact hlow k hk hk'
  · intro k hk hk'
    rw [hw, Function.update_self, Function.update_of_ne (by omega)]
    exact hhigh k (by omega) hk'

/-! ### The recursion -/

/-- `t` is `s` with the range in ascending order, and any value in the first cell. -/
structure RangeSorted (s : Cells ℤ) (start stop : ℤ) (t : Cells ℤ) : Prop where
  length_eq : t.length = s.length
  rearranges : RearrangesPast 0 (Set.Icc start stop) s.cell t.cell
  ascends : AscendsOn t.cell start stop

/-- An empty range is sorted. -/
lemma RangeSorted.of_lt (h : stop < start) : RangeSorted s start stop s :=
  ⟨rfl, .refl _ _ _, .of_lt h⟩

/-- The two sides of a split, sorted. -/
lemma Split.sorted (h₁ : 1 ≤ start) (h : Split s start stop t i)
    (hleft : RangeSorted t start (i - 1) u) (hright : RangeSorted u (i + 1) stop w) :
    RangeSorted s start stop w := by
  obtain ⟨hlen, hstart, hstop, hrearr, hlow, hhigh⟩ := h
  have hpast : ∀ {l r : ℤ}, 1 ≤ l → (0 : ℤ) ∉ Set.Icc l r := fun hl hmem => by
    rw [Set.mem_Icc] at hmem
    omega
  -- neither side touches the other one, nor the pivot
  have hu : ∀ k, i ≤ k → u.cell k = t.cell k := fun k hk =>
    hleft.rearranges.eq_of_notMem (fun hmem => by rw [Set.mem_Icc] at hmem; omega) (by omega)
  have hw : ∀ k, 1 ≤ k → k ≤ i → w.cell k = u.cell k := fun k hk hki =>
    hright.rearranges.eq_of_notMem (fun hmem => by rw [Set.mem_Icc] at hmem; omega) (by omega)
  have hpivot : w.cell i = t.cell i := (hw i (by omega) le_rfl).trans (hu i le_rfl)
  -- the values stay on their sides of the pivot
  have hlow' : ∀ k ∈ Set.Icc start (i - 1), u.cell k ≤ t.cell i :=
    hleft.rearranges.forall_mem (P := fun v => v ≤ t.cell i) (hpast h₁)
      fun k hk => hlow k hk.1 (by have := hk.2; omega)
  have hhigh' : ∀ k ∈ Set.Icc (i + 1) stop, t.cell i < w.cell k :=
    hright.rearranges.forall_mem (P := fun v => t.cell i < v) (hpast (by omega)) fun k hk => by
      rw [hu k (by have := hk.1; omega)]
      exact hhigh k (by have := hk.1; omega) hk.2
  refine ⟨hright.length_eq.trans (hleft.length_eq.trans hlen), ?_, ?_⟩
  · have hmono := hleft.rearranges.mono (Set.Icc_subset_Icc le_rfl (by omega : i - 1 ≤ stop))
    have hmono' := hright.rearranges.mono (Set.Icc_subset_Icc (by omega : start ≤ i + 1) le_rfl)
    exact hrearr.trans (hpast h₁) (hmono.trans (hpast h₁) hmono')
  · have hwleft : ∀ k ∈ Set.Icc start (i - 1), w.cell k = u.cell k :=
      fun k hk => hw k (by have := hk.1; omega) (by have := hk.2; omega)
    refine AscendsOn.join (hleft.ascends.congr hwleft) hright.ascends (fun k hk => ?_)
      fun k hk => ?_
    · rw [hpivot, hwleft k hk]
      exact hlow' k hk
    · rw [hpivot]
      exact (hhigh' k hk).le

/-- **`QuickSort` on any range**: it returns, and has sorted the range. -/
lemma quickSort_ends (h₁ : 1 ≤ start) (hle : start ≤ stop) (hstop : stop < s.length) :
    Ends (fun fuel => quickSort fuel s start stop) (RangeSorted s start stop) := by
  induction hn : (stop - start).toNat using Nat.strong_induction_on generalizing s start stop with
  | _ n ih =>
      refine Ends.of_succ ((quickSplit_ends h₁ hle hstop).bind fun ⟨t, i, j⟩ ⟨hij, ht⟩ => ?_)
      dsimp only at hij ht
      obtain rfl := hij
      have hlen := ht.length_eq
      have hstart := ht.start_le
      have hstop' := ht.le_stop
      refine Ends.bind (Q := RangeSorted t start (i - 1)) ?_ fun u hu => ?_
      · split_ifs with hlt
        · exact ih _ (by omega) h₁ (by omega) (by omega) rfl
        · exact .of_eq (fun _ => rfl) (.of_lt (by omega))
      · have hlen' := hu.length_eq
        refine Ends.mono (Q := RangeSorted u (i + 1) stop) ?_ fun w hw => ht.sorted h₁ hu hw
        split_ifs with hlt
        · exact ih _ (by omega) (by omega) (by omega) (by omega) rfl
        · exact .of_eq (fun _ => rfl) (.of_lt (by omega))

/-- Every call that a call leads to is for a range of the array. -/
lemma QuickCalls.bounds {c d : Cells ℤ × ℤ × ℤ} (h : QuickCalls c d)
    (hc : 1 ≤ c.2.1 ∧ c.2.1 ≤ c.2.2 ∧ c.2.2 < c.1.length) :
    1 ≤ d.2.1 ∧ d.2.1 ≤ d.2.2 ∧ d.2.2 < d.1.length := by
  induction h with
  | self c => exact hc
  | @left s t start stop i j c hsplit hlt _ ih =>
      obtain ⟨h₁, hle, hstop⟩ := hc
      obtain ⟨hij, ht⟩ := (quickSplit_ends h₁ hle hstop).of_returns hsplit
      have hlen := ht.length_eq
      have hstop' := ht.le_stop
      dsimp only at *
      exact ih ⟨h₁, by omega, by omega⟩
  | @right s t u start stop i j c hsplit hleft hlt _ ih =>
      obtain ⟨h₁, hle, hstop⟩ := hc
      obtain ⟨hij, ht⟩ := (quickSplit_ends h₁ hle hstop).of_returns hsplit
      have hlen := ht.length_eq
      have hstart := ht.start_le
      dsimp only at *
      have hlen' : u.length = t.length := by
        split_ifs at hleft with hlt'
        · have hu := quickSort_ends (s := t) h₁ (by omega : start ≤ j - 1) (by omega)
          exact (hu.of_returns hleft).length_eq
        · obtain ⟨N, hN⟩ := hleft
          rw [Option.some_inj.mp (hN N le_rfl)]
      exact ih ⟨by omega, by omega, by omega⟩

/-- What a call leaves, read off the lists. -/
lemma RangeSorted.sortedIn (h₁ : 1 ≤ start) (hstop : stop < s.length)
    (h : RangeSorted s start stop t) : SortedIn {0} start stop s t :=
  .of_rearrangesPast (by omega) hstop (fun hmem => by have := hmem.1; omega) h.length_eq
    h.rearranges h.ascends

/-- **Quicksort**: `QuickSort(s, 1, n)` and `qusort(s, 1, n)` return, with `s[1..n]` in ascending
order and, apart from `s[0]`, nothing else changed; and so do all calls that this one leads to, on
their ranges. -/
theorem quickSort_sorts {n : ℤ} (hn : 1 ≤ n) (hs : n < s.length) :
    (∃ t, Returns (fun fuel => quickSort fuel s 1 n) t
      ∧ Returns (fun fuel => qusort fuel s 1 n) t ∧ SortedIn {0} 1 n s t)
    ∧ ∀ u start stop, QuickCalls (s, 1, n) (u, start, stop) →
      ∃ w, Returns (fun fuel => quickSort fuel u start stop) w ∧ SortedIn {0} start stop u w := by
  constructor
  · obtain ⟨t, ht, hsorted⟩ := quickSort_ends le_rfl hn hs
    exact ⟨t, ht, ht, hsorted.sortedIn le_rfl hs⟩
  · intro u start stop hcall
    obtain ⟨h₁, hle, hstop⟩ := hcall.bounds ⟨le_rfl, hn, hs⟩
    obtain ⟨w, hw, hsorted⟩ := quickSort_ends h₁ hle hstop
    exact ⟨w, hw, hsorted.sortedIn h₁ hstop⟩

/-- The theorem at an array of five cells. -/
theorem quickSort_sorts_four :
    (∃ t, Returns (fun fuel => quickSort fuel [0, 3, 1, 3, 2] 1 4) t
      ∧ Returns (fun fuel => qusort fuel [0, 3, 1, 3, 2] 1 4) t
      ∧ SortedIn {0} 1 4 [0, 3, 1, 3, 2] t)
    ∧ ∀ u start stop, QuickCalls ([0, 3, 1, 3, 2], 1, 4) (u, start, stop) →
      ∃ w, Returns (fun fuel => quickSort fuel u start stop) w ∧ SortedIn {0} start stop u w :=
  quickSort_sorts (by decide) (by decide)

end Sorts

end Wgs.Sorting
