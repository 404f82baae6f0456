import Wgs.Foundation.Merging

/-!
Sorting records in an array by key, and stability.

`KeepsGroups` is the rearrangement of a range that leaves the records of one key in their order:
neighbours with different keys may change places (`KeepsGroups.swap`).  A program that only does
this, and leaves the range in ascending order, has sorted it stably (`StablySortedIn`), and any two
such programs leave the same array (`StablySortedIn.unique`).  `SortedByKey` is the result of a
program that need not be stable.
-/

namespace Foundation

variable {α : Type} {key : α → ℤ} {f f' f'' : ℤ → α} {l r i j : ℤ} {s s' s'' : Cells α}

/-! ### Lists -/

/-- A list has only one stable sorting. -/
theorem StablySorted.unique {xs ys ys' : List α} (h : StablySorted key xs ys)
    (h' : StablySorted key xs ys') : ys = ys' := by
  obtain ⟨hperm, hasc, hstable⟩ := h
  obtain ⟨hperm', hasc', hstable'⟩ := h'
  have hsame : ∀ k, ys.filter (fun x => key x = k) = ys'.filter fun x => key x = k :=
    fun k => (hstable k).trans (hstable' k).symm
  have hp : ys.Perm ys' := hperm.trans hperm'.symm
  clear hstable hstable' hperm hperm'
  induction ys generalizing ys' with
  | nil => exact hp.nil_eq
  | cons y ys ih =>
      cases ys' with
      | nil => exact absurd hp.eq_nil (List.cons_ne_nil _ _)
      | cons y' ys' =>
          -- both start with a record of the least key
          have hle : key y ≤ key y' := by
            rcases List.mem_cons.mp (hp.mem_iff.mpr List.mem_cons_self) with rfl | hmem
            · exact le_rfl
            · exact List.rel_of_pairwise_cons hasc hmem
          have hle' : key y' ≤ key y := by
            rcases List.mem_cons.mp (hp.mem_iff.mp List.mem_cons_self) with rfl | hmem
            · exact le_rfl
            · exact List.rel_of_pairwise_cons hasc' hmem
          have hkey : key y' = key y := le_antisymm hle' hle
          have hhead := hsame (key y)
          rw [List.filter_cons_of_pos (by simp), List.filter_cons_of_pos (by simpa using hkey)]
            at hhead
          obtain ⟨rfl, -⟩ := List.cons_eq_cons.mp hhead
          rw [ih hasc.of_cons hasc'.of_cons (fun k => ?_) (List.perm_cons _ |>.mp hp)]
          have htail := hsame k
          rw [List.filter_cons, List.filter_cons] at htail
          split_ifs at htail with hk
          · exact (List.cons_eq_cons.mp htail).2
          · exact htail

/-! ### The values in a range -/

/-- The values from `l` to `r`. -/
def valuesOn (f : ℤ → α) (l r : ℤ) : List α :=
  (List.range (r + 1 - l).toNat).map fun k : ℕ => f (l + k)

lemma valuesOn_of_lt (h : r < l) : valuesOn f l r = [] := by
  have hzero : (r + 1 - l).toNat = 0 := by omega
  rw [valuesOn, hzero]
  rfl

lemma valuesOn_cons (h : l ≤ r) : valuesOn f l r = f l :: valuesOn f (l + 1) r := by
  have hlen : (r + 1 - l).toNat = (r + 1 - (l + 1)).toNat + 1 := by omega
  rw [valuesOn, valuesOn, hlen, List.range_succ_eq_map, List.map_cons, List.map_map, Nat.cast_zero,
    add_zero]
  refine congrArg _ (List.map_congr_left fun k _ => ?_)
  rw [Function.comp_apply, Nat.cast_succ]
  ring_nf

lemma valuesOn_append {m : ℤ} (hlm : l ≤ m + 1) (hmr : m ≤ r) :
    valuesOn f l m ++ valuesOn f (m + 1) r = valuesOn f l r := by
  obtain ⟨k, hk⟩ := Int.le.dest hlm
  induction k generalizing l with
  | zero =>
      obtain rfl : l = m + 1 := by simpa using hk
      rw [valuesOn_of_lt (by omega), List.nil_append]
  | succ k ih =>
      push_cast at hk
      rw [valuesOn_cons (by omega), valuesOn_cons (f := f) (l := l) (r := r) (by omega),
        List.cons_append, ih (by omega) (by omega)]

lemma valuesOn_congr (h : ∀ i ∈ Set.Icc l r, f' i = f i) : valuesOn f' l r = valuesOn f l r := by
  refine List.map_congr_left fun k hk => h _ ⟨by omega, ?_⟩
  rw [List.mem_range] at hk
  omega

/-! ### Rearrangements that keep the groups -/

/-- The values from `l` to `r` are rearranged, those of one key in their order. -/
structure KeepsGroups (key : α → ℤ) (l r : ℤ) (f f' : ℤ → α) : Prop where
  rearranges : Rearranges (Set.Icc l r) f f'
  groups : ∀ k, (valuesOn f' l r).filter (fun x => key x = k)
    = (valuesOn f l r).filter fun x => key x = k

namespace KeepsGroups

lemma refl (key : α → ℤ) (l r : ℤ) (f : ℤ → α) : KeepsGroups key l r f f :=
  ⟨.refl _ _, fun _ => rfl⟩

lemma trans (h : KeepsGroups key l r f f') (h' : KeepsGroups key l r f' f'') :
    KeepsGroups key l r f f'' :=
  ⟨h.rearranges.trans h'.rearranges, fun k => (h'.groups k).trans (h.groups k)⟩

/-- **Neighbours with different keys change places.** -/
lemma swap (hl : l ≤ j) (hr : j + 1 ≤ r) (hkey : key (f j) ≠ key (f (j + 1))) :
    KeepsGroups key l r f (f ∘ Equiv.swap j (j + 1)) := by
  refine ⟨.swap f ⟨hl, by omega⟩ ⟨by omega, hr⟩, fun k => ?_⟩
  have hfix : ∀ i, i ≠ j → i ≠ j + 1 → (f ∘ Equiv.swap j (j + 1)) i = f i := fun i hi hi' => by
    rw [Function.comp_apply, Equiv.swap_apply_of_ne_of_ne hi hi']
  have hparts : ∀ g : ℤ → α, valuesOn g l r
      = valuesOn g l (j - 1) ++ g j :: g (j + 1) :: valuesOn g (j + 1 + 1) r := by
    intro g
    rw [← valuesOn_append (m := j - 1) (by omega) (by omega), sub_add_cancel,
      valuesOn_cons (l := j) (by omega), valuesOn_cons (l := j + 1) hr]
  rw [hparts, hparts f, valuesOn_congr fun i hi => hfix i (by have := hi.2; omega)
    (by have := hi.2; omega), valuesOn_congr fun i hi => hfix i (by have := hi.1; omega)
    (by have := hi.1; omega), Function.comp_apply, Function.comp_apply, Equiv.swap_apply_left,
    Equiv.swap_apply_right]
  exact (StablyRearranged.swap hkey).stable k

end KeepsGroups

/-! ### Sorted ranges -/

/-- `s'` is `s` with the records from `l` to `r` in ascending order by key, and no other cell
changed. -/
structure SortedByKey (key : α → ℤ) (l r : ℤ) (s s' : Cells α) : Prop where
  length_eq : s'.length = s.length
  perm : (s'.segment l r).Perm (s.segment l r)
  ascending : Ascending key (s'.segment l r)
  frame : ∀ i, i ∉ Set.Icc l r → s'.load i = s.load i

/-- The same, and the records of one key are in the order that they had. -/
structure StablySortedIn (key : α → ℤ) (l r : ℤ) (s s' : Cells α) : Prop where
  length_eq : s'.length = s.length
  sorted : StablySorted key (s.segment l r) (s'.segment l r)
  frame : ∀ i, i ∉ Set.Icc l r → s'.load i = s.load i

/-- An array is what a segment holds and what is outside of it. -/
lemma Cells.ext_segment (hl : 0 ≤ l) (hseg : s'.segment l r = s.segment l r)
    (hframe : ∀ i, i ∉ Set.Icc l r → s'.load i = s.load i) : s' = s := by
  refine List.ext_getElem? fun k => ?_
  by_cases hk : (k : ℤ) ∈ Set.Icc l r
  · have hk₁ := hk.1
    have hk₂ := hk.2
    have hcell := congrArg (fun xs => xs[((k : ℤ) - l).toNat]?) hseg
    simp only [segment, List.getElem?_take, List.getElem?_drop] at hcell
    rw [if_pos (by omega), if_pos (by omega)] at hcell
    rwa [show l.toNat + ((k : ℤ) - l).toNat = k by omega] at hcell
  · have hload := hframe k hk
    rwa [load, load, if_neg (by omega), if_neg (by omega), Int.toNat_natCast] at hload

/-- **The array that a stable sorting leaves is determined.** -/
theorem StablySortedIn.unique (hl : 0 ≤ l) (h : StablySortedIn key l r s s')
    (h' : StablySortedIn key l r s s'') : s' = s'' :=
  Cells.ext_segment hl (h.sorted.unique h'.sorted) fun i hi =>
    (h.frame i hi).trans (h'.frame i hi).symm

lemma StablySortedIn.sortedByKey (h : StablySortedIn key l r s s') : SortedByKey key l r s s' :=
  ⟨h.length_eq, h.sorted.perm, h.sorted.ascending, h.frame⟩

/-- The keys that a sorting leaves are determined. -/
theorem SortedByKey.map_key_unique (hl : 0 ≤ l) (h : SortedByKey key l r s s')
    (h' : SortedByKey key l r s s'') : s'.map key = s''.map key := by
  refine Cells.ext_segment (l := l) (r := r) hl ?_ fun i hi => ?_
  · rw [Cells.segment_map, Cells.segment_map]
    have hasc : ((s'.segment l r).map key).Pairwise (· ≤ ·) := List.pairwise_map.mpr h.ascending
    have hasc' : ((s''.segment l r).map key).Pairwise (· ≤ ·) := List.pairwise_map.mpr h'.ascending
    exact List.Perm.eq_of_pairwise (fun _ _ _ _ => le_antisymm) hasc hasc'
      ((h.perm.trans h'.perm.symm).map key)
  · rw [Cells.load_map, Cells.load_map, h.frame i hi, h'.frame i hi]

section Results

variable [Inhabited α]

/-- The order of the records, in terms of the places. -/
lemma ascending_segment (hl : 0 ≤ l) (hr : r < s.length)
    (hasc : AscendsOn (fun i => key (s.cell i)) l r) : Ascending key (s.segment l r) := by
  rw [Ascending, Cells.pairwise_segment_iff hl hr]
  exact fun i j hi hij hj => hasc i j hi hij.le hj

lemma SortedByKey.of_rearranges (hl : 0 ≤ l) (hr : r < s.length) (hlen : s'.length = s.length)
    (h : Rearranges (Set.Icc l r) s.cell s'.cell)
    (hasc : AscendsOn (fun i => key (s'.cell i)) l r) : SortedByKey key l r s s' where
  length_eq := hlen
  perm := by
    rw [Cells.segment_eq hl hr, Cells.segment_eq hl (hlen ▸ hr)]
    exact h.perm_map
  ascending := ascending_segment hl (hlen ▸ hr) hasc
  frame := fun _ hi => Cells.load_eq_of_cell hlen (h.eq_of_notMem hi)

lemma StablySortedIn.of_keepsGroups (hl : 0 ≤ l) (hr : r < s.length) (hlen : s'.length = s.length)
    (h : KeepsGroups key l r s.cell s'.cell)
    (hasc : AscendsOn (fun i => key (s'.cell i)) l r) : StablySortedIn key l r s s' := by
  obtain ⟨-, hperm, hascending, hframe⟩ := SortedByKey.of_rearranges hl hr hlen h.rearranges hasc
  refine ⟨hlen, ⟨hperm, hascending, ?_⟩, hframe⟩
  rw [Cells.segment_eq hl hr, Cells.segment_eq hl (hlen ▸ hr)]
  exact h.groups

end Results

end Foundation
