import Wgs.Sorting.Shell

/-!
Insertion sort with a sentinel: `insort` of `C/zhiJieChaRu.c`.

The value that is inserted is kept in `s[0]`, where it stops the inner loop at the latest.  One
insertion is that of a Shell sort with the gap 1, and so are the steps of its proof.  The outer loop
leaves out the last of the `n` values, which stays where it is (`insort_sorts_iff`).
-/

namespace Wgs.Sorting.Sentinel

open Foundation

/-! ### The program -/

/-- `while(s[0] < s[j]) { s[j+1] = s[j]; j--; }` -/
def shiftLoop : ℕ → Cells ℤ × ℤ → Option (Cells ℤ × ℤ) :=
  whileLoop
    (fun (s, j) => return (← s.load 0) < (← s.load j))
    (fun _ (s, j) => return (← s.store (j + 1) (← s.load j), j - 1))

/-- The body of the `for` loop. -/
def insert (fuel : ℕ) (s : Cells ℤ) (i : ℤ) : Option (Cells ℤ) := do
  let s ← s.store 0 (← s.load i)
  let (s, j) ← shiftLoop fuel (s, i - 1)
  s.store (j + 1) (← s.load 0)

/-- `for (i = 2; i < n; i++)`, from some `i` on. -/
def insertLoop (n : ℤ) : ℕ → Cells ℤ × ℤ → Option (Cells ℤ × ℤ) :=
  whileLoop
    (fun (_, i) => return i < n)
    (fun fuel (s, i) => return (← insert fuel s i, i + 1))

/-- `insort`. -/
def insort (fuel : ℕ) (s : Cells ℤ) (n : ℤ) : Option (Cells ℤ) := do
  let (s, _) ← insertLoop n fuel (s, 2)
  return s

/-! ### One insertion -/

section Insertion

variable {s₀ s : Cells ℤ} {h i n : ℤ}

/-- The loop stops at `s[0]`, if not before. -/
lemma shiftLoop_ends (hi : i < s₀.length) (hs : Shifting s₀ 1 i s h) :
    Ends (fun fuel => shiftLoop fuel (s, h - 1)) fun r => Shifting s₀ 1 i r.1 (r.2 + 1)
      ∧ r.1.cell r.2 ≤ s₀.cell i := by
  have hstart : Shifting s₀ 1 i s (h - 1 + 1) := by rwa [sub_add_cancel]
  refine Ends.whileLoop (I := fun r => Shifting s₀ 1 i r.1 (r.2 + 1)) (fun r => (r.2 + 1).toNat)
    (fun r hr => ?_) hstart
  obtain ⟨s, j⟩ := r
  dsimp only at hr ⊢
  have hlen := hr.length_eq
  have hone := hr.one_le
  have hle := hr.le
  have h₀ : s.load 0 = some (s₀.cell i) := hr.pivot ▸ Cells.load_eq le_rfl (by omega)
  have hload := Cells.load_eq (s := s) (show 0 ≤ j by omega) (by omega)
  by_cases hcmp : s₀.cell i < s.cell j
  · have hj : j ≠ 0 := by
      rintro rfl
      rw [hr.pivot] at hcmp
      exact lt_irrefl _ hcmp
    refine Or.inl ⟨by simp [h₀, hload, hcmp], ?_⟩
    refine Ends.load (by omega) (by omega) (Ends.store (by omega) (by omega) fun s' hlen' hs' => ?_)
    refine .of_eq (fun _ => rfl) ⟨?_, ?_⟩ <;> dsimp only
    · have hshift := hr.shift le_rfl (by omega) (by rwa [add_sub_cancel_right]) hlen'
        (by rwa [add_sub_cancel_right])
      rw [add_sub_cancel_right] at hshift
      rwa [sub_add_cancel]
    · omega
  · exact Or.inr ⟨by simp [h₀, hload, hcmp], hr, not_lt.mp hcmp⟩

/-- One more value is inserted. -/
lemma insert_ends (hi : 2 ≤ i) (hin : i < s.length) (hord : GapOrdered 1 (i - 1) s.cell) :
    Ends (fun fuel => insert fuel s i) fun t => t.length = s.length
      ∧ RearrangesPast 0 (Set.Icc 1 i) s.cell t.cell ∧ GapOrdered 1 i t.cell := by
  simp only [insert]
  refine Ends.load (by omega) hin (Ends.store le_rfl (by omega) fun t hlen ht => ?_)
  refine (shiftLoop_ends hin (.start le_rfl hi hord hlen ht)).bind fun r hr => ?_
  obtain ⟨u, j⟩ := r
  obtain ⟨hu, hcell⟩ := hr
  dsimp only at hu hcell ⊢
  have hlen' := hu.length_eq
  have hone := hu.one_le
  have hle := hu.le
  refine Ends.load le_rfl (by omega) ?_
  obtain ⟨w, hw, hlen'', hcell'⟩ := Cells.store_spec (s := u) (i := j + 1) (by omega) (by omega)
    (u.cell 0)
  rw [hu.pivot] at hcell'
  refine .of_eq (fun _ => hw) ⟨hlen''.trans hlen', ⟨_, hcell' ▸ hu.rearranges⟩, ?_⟩
  rw [hcell']
  exact hu.ordered_fill le_rfl fun _ => by rwa [add_sub_cancel_right]

end Insertion

/-! ### The loop -/

section Loop

variable {s t : Cells ℤ} {n : ℤ}

/-- All values but the last one get sorted, and the last one stays. -/
lemma insort_ends (hn : n < s.length) :
    Ends (fun fuel => insort fuel s n) fun t => t.length = s.length
      ∧ RearrangesPast 0 (Set.Icc 1 (n - 1)) s.cell t.cell ∧ AscendsOn t.cell 1 (n - 1) := by
  have hloop : Ends (fun fuel => insertLoop n fuel (s, 2)) fun r => r.1.length = s.length
      ∧ RearrangesPast 0 (Set.Icc 1 (n - 1)) s.cell r.1.cell ∧ GapOrdered 1 (n - 1) r.1.cell := by
    refine Ends.whileLoop
      (I := fun r => r.1.length = s.length ∧ 2 ≤ r.2
        ∧ RearrangesPast 0 (Set.Icc 1 (n - 1)) s.cell r.1.cell ∧ GapOrdered 1 (r.2 - 1) r.1.cell)
      (fun r => (n - r.2).toNat) (fun r hr => ?_)
      ⟨rfl, le_rfl, .refl _ _ _, fun k hk hk' => by dsimp only at hk'; omega⟩
    obtain ⟨t, i⟩ := r
    obtain ⟨hlen, hi, hrearr, hord⟩ := hr
    dsimp only at *
    by_cases hin : i < n
    · refine Or.inl ⟨by simp [hin], ?_⟩
      refine (insert_ends hi (by omega) hord).bind fun u ⟨hlen', hrearr', hord'⟩ => ?_
      have hmono : Set.Icc 1 i ⊆ Set.Icc 1 (n - 1) := Set.Icc_subset_Icc (le_refl 1) (by omega)
      have hrearr'' := hrearr.trans (by simp) (hrearr'.mono hmono)
      refine .of_eq (fun _ => rfl) ⟨⟨hlen'.trans hlen, by dsimp only; omega, hrearr'', ?_⟩, ?_⟩
        <;> dsimp only
      · rwa [add_sub_cancel_right]
      · omega
    · exact Or.inr ⟨by simp [hin], hlen, hrearr, fun k hk hk' => hord k hk (by omega)⟩
  refine hloop.bind fun ⟨t, i⟩ ⟨hlen, hrearr, hord⟩ => ?_
  exact .of_eq (fun _ => rfl) ⟨hlen, hrearr, hord.ascends⟩

/-- **Insertion sort with a sentinel**: `insort` sorts `s[1..n]` exactly when none of the values in
front of the last one is greater than it. -/
theorem insort_sorts_iff (hn₁ : 1 ≤ n) (hn : n < s.length) :
    (∃ t, Returns (fun fuel => insort fuel s n) t ∧ SortedIn {0} 1 n s t)
    ↔ ∀ i, 1 ≤ i → i < n → s.cell i ≤ s.cell n := by
  obtain ⟨t, ht, hlen, hrearr, hasc⟩ := insort_ends hn
  have hlast : t.cell n = s.cell n :=
    hrearr.eq_of_notMem (fun hmem => by have hle := hmem.2; omega) (by omega)
  obtain ⟨v, hrearr'⟩ := id hrearr
  constructor
  · rintro ⟨t', ht', hsorted⟩ i hi hin
    obtain rfl := ht.unique ht'
    have hpairs := (Cells.pairwise_segment_iff zero_le_one (hlen ▸ hn)).mp hsorted.ascending
    have hle := hrearr'.symm.forall_mem (P := fun x => x ≤ s.cell n) (fun j hj => ?_) i
      ⟨hi, by omega⟩
    · rwa [Function.update_of_ne (by omega)] at hle
    · obtain ⟨hj₁, hj₂⟩ := hj
      rw [← hlast]
      exact hpairs j n hj₁ (by omega) le_rfl
  · intro hle
    refine ⟨t, ht, .of_rearrangesPast zero_le_one hn (by simp) hlen ?_ ?_⟩
    · exact hrearr.mono (Set.Icc_subset_Icc (le_refl 1) (by omega))
    · refine hasc.join (m := n) (.of_lt (by omega)) (fun k hk => ?_) fun k hk => ?_
      · rw [hlast]
        refine hrearr.forall_mem (P := fun x => x ≤ s.cell n) (by simp) (fun j hj => ?_) k hk
        obtain ⟨hj₁, hj₂⟩ := hj
        exact hle j hj₁ (by omega)
      · obtain ⟨hk₁, hk₂⟩ := hk
        omega

/-- The theorem at an array of four values. -/
theorem insort_sorts_four :
    (∃ t, Returns (fun fuel => insort fuel [0, 3, 1, 2, 3] 4) t
      ∧ SortedIn {0} 1 4 [0, 3, 1, 2, 3] t)
    ↔ ∀ i : ℤ, 1 ≤ i → i < 4 →
      Cells.cell [0, 3, 1, 2, 3] i ≤ Cells.cell ([0, 3, 1, 2, 3] : Cells ℤ) 4 :=
  insort_sorts_iff (by decide) (by decide)

/-- Two values in descending order stay as they are. -/
theorem insort_two_fails :
    ¬ ∃ t, Returns (fun fuel => insort fuel [0, 2, 1] 2) t ∧ SortedIn {0} 1 2 [0, 2, 1] t := by
  rintro ⟨t, ht, hsorted⟩
  have hret : Returns (fun fuel => insort fuel [0, 2, 1] 2) [0, 2, 1] :=
    ⟨1, fun fuel hfuel => by
      obtain ⟨fuel, rfl⟩ : ∃ k, fuel = k + 1 := ⟨fuel - 1, by omega⟩
      rfl⟩
  obtain rfl := ht.unique hret
  have hasc := hsorted.ascending
  revert hasc
  decide

end Loop

end Wgs.Sorting.Sentinel
