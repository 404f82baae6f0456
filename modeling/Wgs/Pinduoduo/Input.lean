import Wgs.Sorting.Shell

/-!
What `main` of `C/pinduoduo/p1.c` and of `C/pinduoduo/p3.c` begin with: the numbers of a case are
read into an array from the cell 1 on, and sorted there.

The sort permutes the places of the numbers (`SortedFrom`), so that what is found out about the
sorted array can be said of the numbers in the order in which they came.
-/

namespace Wgs.Pinduoduo

open Foundation

/-- `for (i = 1; i <= n; i++) scanf("%d", s + i);`, from some `i` on; at the end of the input
`scanf` leaves the cell as it is. -/
def readLoop (n : ℤ) : ℕ → Cells ℤ × List ℤ × ℤ → Option (Cells ℤ × List ℤ × ℤ) :=
  whileLoop
    (fun (_, _, i) => return i ≤ n)
    (fun _ (s, input, i) => do
      match input with
      | [] => return (s, [], toInt32 (i + 1))
      | x :: input => return (← s.store i x, input, toInt32 (i + 1)))

/-- The number in the place `i`, counted from 1. -/
def nth (xs : List ℤ) (i : ℤ) : ℤ := Cells.cell xs (i - 1)

/-- The array holds the numbers in ascending order, each from some place of the list. -/
structure SortedFrom (xs : List ℤ) (σ : Equiv.Perm ℤ) (s : Cells ℤ) : Prop where
  mem_iff : ∀ i, σ i ∈ Set.Icc (1 : ℤ) xs.length ↔ i ∈ Set.Icc (1 : ℤ) xs.length
  cell_eq : ∀ i ∈ Set.Icc (1 : ℤ) xs.length, s.cell i = nth xs (σ i)
  ascends : AscendsOn s.cell 1 xs.length

section Input

variable {xs rest : List ℤ} {s : Cells ℤ}

/-- The numbers are read. -/
lemma readLoop_ends (hlen : xs.length < s.length) (hmax : xs.length < 2147483647) :
    Ends (fun fuel => readLoop xs.length fuel (s, xs ++ rest, 1)) fun r =>
      r.1.length = s.length ∧ r.2.1 = rest
        ∧ ∀ i ∈ Set.Icc (1 : ℤ) xs.length, r.1.cell i = nth xs i := by
  have hle : (s.cell 0 :: xs).length ≤ s.length := hlen
  have hread : Ends (fun fuel => readLoop xs.length fuel
      (Cells.fill (s.cell 0 :: xs) s (0 + 1), xs.drop 0 ++ rest, ((0 : ℕ) : ℤ) + 1))
      (· = (Cells.fill (s.cell 0 :: xs) s (xs.length + 1), xs.drop xs.length ++ rest,
        (xs.length : ℤ) + 1)) := by
    refine Ends.whileLoop_numbered (n := xs.length)
      (fun t => (Cells.fill (s.cell 0 :: xs) s (t + 1), xs.drop t ++ rest, (t : ℤ) + 1))
      (fun t ht => ?_) (fun t ht => ?_) (by simp) (Nat.zero_le _)
    · simpa using ht
    · have hstore : (Cells.fill (s.cell 0 :: xs) s (t + 1)).store (t + 1) xs[t]
          = some (Cells.fill (s.cell 0 :: xs) s (t + 1 + 1)) :=
        Cells.store_fill (Nat.succ_lt_succ ht) hle
      have hinc : toInt32 ((t : ℤ) + 1 + 1) = (t : ℤ) + 1 + 1 :=
        toInt32_of_isInt32 ⟨by omega, by omega⟩
      refine .of_eq (fun _ => ?_) rfl
      rw [List.drop_eq_getElem_cons ht, List.cons_append]
      simp [hstore, hinc]
  rw [zero_add, Cells.fill_one (by omega), List.drop_zero, Nat.cast_zero, zero_add] at hread
  refine hread.mono fun r hr => ?_
  obtain rfl := hr
  refine ⟨Cells.length_fill le_rfl hle, by rw [List.drop_length, List.nil_append],
    fun i ⟨hi, hi'⟩ => ?_⟩
  have hcell : (Cells.fill (s.cell 0 :: xs) s (xs.length + 1)).cell i
      = Cells.cell (s.cell 0 :: xs) i :=
    Cells.cell_fill_of_lt (by omega) (by push_cast; omega) le_rfl
  rw [hcell]
  exact Cells.cell_cons hi

/-- For numbers that there is no room for, the loop writes behind the array. -/
lemma readLoop_eq_none (hlen : s.length ≤ xs.length) (hpos : 0 < s.length)
    (hmax : s.length < 2147483647) (fuel : ℕ) :
    readLoop xs.length fuel (s, xs ++ rest, 1) = none := by
  refine whileLoop_eq_none (I := fun r : Cells ℤ × List ℤ × ℤ => r.1.length = s.length
    ∧ 1 ≤ r.2.2 ∧ r.2.2 ≤ (s.length : ℤ) ∧ (s.length : ℤ) < r.2.1.length + r.2.2)
    (fun r hr => ?_) (fun fuel r r' hr hbody => ?_) ?_ fuel
  · have htest : r.2.2 ≤ xs.length := hr.2.2.1.trans (Nat.cast_le.mpr hlen)
    simpa using htest
  · obtain ⟨t, input, i⟩ := r
    obtain ⟨hlength, hi, hi', hinput⟩ := hr
    dsimp only at *
    cases input with
    | nil =>
        rw [List.length_nil] at hinput
        omega
    | cons x input =>
        rw [List.length_cons] at hinput
        obtain ⟨t', ht', hbody⟩ := Option.bind_eq_some_iff.mp hbody
        obtain rfl := Option.some_inj.mp hbody
        have hroom : i < t.length := by
          by_contra hroom
          rw [Cells.store, if_neg (by omega)] at ht'
          exact absurd ht' (by simp)
        obtain ⟨t'', hstore, hlen', -⟩ := Cells.store_spec (by omega) hroom x
        rw [hstore] at ht'
        obtain rfl := Option.some_inj.mp ht'
        have hinc : toInt32 (i + 1) = i + 1 := toInt32_of_isInt32 ⟨by omega, by omega⟩
        dsimp only
        rw [hinc]
        refine ⟨by omega, by omega, by omega, by push_cast at hinput; omega⟩
  · refine ⟨rfl, le_rfl, by dsimp only; omega, ?_⟩
    dsimp only
    rw [List.length_append]
    push_cast
    omega

/-- **The numbers are sorted.** -/
lemma sort_ends (hlen : xs.length < s.length) (hmax : xs.length < 2147483647)
    (hs : ∀ i ∈ Set.Icc (1 : ℤ) xs.length, s.cell i = nth xs i) :
    Ends (fun fuel => Sorting.shsort fuel s xs.length) fun t =>
      t.length = s.length ∧ ∃ σ, SortedFrom xs σ t := by
  refine (Sorting.shsort_rearranges (by omega) (by omega) (by omega)).mono
    fun t ⟨hlength, ⟨v, σ, hσ, ht⟩, hasc⟩ => ?_
  have hmem : ∀ i, σ i ∈ Set.Icc (1 : ℤ) xs.length ↔ i ∈ Set.Icc (1 : ℤ) xs.length := by
    intro i
    by_cases hi : i ∈ Set.Icc (1 : ℤ) xs.length
    · refine iff_of_true ?_ hi
      by_contra hout
      have hfix : σ i = i := σ.injective (hσ _ hout)
      rw [hfix] at hout
      exact hout hi
    · rw [hσ i hi]
  refine ⟨hlength, σ, hmem, fun i hi => ?_, hasc⟩
  have hpos := ((hmem i).mpr hi).1
  rw [ht, Function.comp_apply, Function.update_of_ne (by omega), hs _ ((hmem i).mpr hi)]

end Input

end Wgs.Pinduoduo
