import Wgs.Foundation.Cells

/-!
`C/movezones.c`: the zeros of an array to its end.

Where there is a zero, all that is behind it is moved down by one place, and as many zeros as have
been found are put back at the end.  The loop that moves goes one step too far: for the last place
it takes what stands behind the array (`shiftLoop_eq_none`).  So the program is right about arrays
without a zero only.
-/

namespace Wgs.MoveZeros

open Foundation

/-! ### The program -/

/-- `for (j = i; j < 5; j++)`, from some `j` on, in an array of any size. -/
def shiftLoop (size : ℤ) : ℕ → ℤ × Cells ℤ → Option (ℤ × Cells ℤ) :=
  whileLoop
    (fun (j, _) => return j < size)
    (fun _ (j, a) => do
      let x ← a.load (j + 1)
      let a ← a.store j x
      return (j + 1, a))

/-- `for (i = 0; i < 5; i++)`: `i`, `n` and the array. -/
def findLoop (size : ℤ) : ℕ → ℤ × ℤ × Cells ℤ → Option (ℤ × ℤ × Cells ℤ) :=
  whileLoop
    (fun (i, _, _) => return i < size)
    (fun fuel (i, n, a) => do
      if (← a.load i) = 0 then
        let (_, a) ← shiftLoop size fuel (i, a)
        return (i + 1, n + 1, a)
      else return (i + 1, n, a))

/-- `for (i = 4; i >= 5 - n; i--)` -/
def zeroLoop (size n : ℤ) : ℕ → ℤ × Cells ℤ → Option (ℤ × Cells ℤ) :=
  whileLoop
    (fun (i, _) => return i ≥ size - n)
    (fun _ (i, a) => do
      let a ← a.store i 0
      return (i - 1, a))

/-- `for (i = 0; i < 5; i++) printf(" %d ", a[i]);`: `i`, and what is printed. -/
def printLoop (size : ℤ) (a : Cells ℤ) : ℕ → ℤ × List ℤ → Option (ℤ × List ℤ) :=
  whileLoop
    (fun (i, _) => return i < size)
    (fun _ (i, out) => do return (i + 1, out ++ [← a.load i]))

/-- `main`, for an array of any size: the array at the end, and what is printed. -/
def main (a : Cells ℤ) (fuel : ℕ) : Option (Cells ℤ × List ℤ) := do
  let size : ℤ := a.length
  let (_, n, a) ← findLoop size fuel (0, 0, a)
  let (_, a) ← zeroLoop size n fuel (size - 1, a)
  let (_, out) ← printLoop size a fuel (0, [])
  return (a, out)

/-- The array ends up with its other elements in their order, and all its zeros behind them. -/
def MovesZeros (a : Cells ℤ) : Prop :=
  ∃ out, Returns (main a) (a.filter (· ≠ 0) ++ a.filter (· = 0), out)

/-! ### A zero -/

variable {a : Cells ℤ} {i j : ℤ}

/-- **The step too far**: the value for the last place is sought behind it. -/
lemma shiftLoop_eq_none (hlt : j < a.length) (fuel : ℕ) :
    shiftLoop a.length fuel (j, a) = none := by
  refine whileLoop_eq_none (I := fun s : ℤ × Cells ℤ => s.1 < a.length ∧ s.2.length = a.length)
    (fun s hs => ?_) (fun fuel s s' hs hbody => ?_) ⟨hlt, rfl⟩ fuel
  · have htest : decide (s.1 < (a.length : ℤ)) = true := decide_eq_true hs.1
    simp [htest]
  · obtain ⟨x, hload, hbody⟩ := Option.bind_eq_some_iff.mp hbody
    obtain ⟨b, hstore, hbody⟩ := Option.bind_eq_some_iff.mp hbody
    obtain rfl := Option.some_inj.mp hbody
    have hnext := (Cells.lt_of_load hload).2
    have hlen := Cells.length_of_store hstore
    exact ⟨by dsimp only; omega, hlen.trans hs.2⟩

/-- **The first zero** is where the program goes wrong. -/
lemma findLoop_eq_none (hzero : 0 ∈ a) (fuel : ℕ) : findLoop a.length fuel (0, 0, a) = none := by
  obtain ⟨k, hk, hget⟩ := List.getElem_of_mem hzero
  have hload : a.load k = some 0 := by
    rw [Cells.load, if_neg (by omega), Int.toNat_natCast, List.getElem?_eq_getElem hk, hget]
  refine whileLoop_eq_none
    (I := fun s : ℤ × ℤ × Cells ℤ => 0 ≤ s.1 ∧ s.1 ≤ k ∧ s.2.2 = a)
    (fun s hs => ?_) (fun fuel s s' hs hbody => ?_) ⟨le_rfl, by omega, rfl⟩ fuel
  · have htest : decide (s.1 < (a.length : ℤ)) = true := decide_eq_true (by omega)
    simp [htest]
  · obtain ⟨i, n, b⟩ := s
    obtain ⟨hi, hik, rfl⟩ : 0 ≤ i ∧ i ≤ k ∧ b = a := hs
    obtain ⟨x, hx, hbody⟩ := Option.bind_eq_some_iff.mp hbody
    dsimp only at hx hbody
    by_cases hzero : x = 0
    · rw [if_pos hzero, shiftLoop_eq_none (by omega)] at hbody
      cases hbody
    · rw [if_neg hzero] at hbody
      obtain rfl := Option.some_inj.mp hbody
      have hne : i ≠ k := by
        rintro rfl
        rw [hload] at hx
        exact hzero (Option.some_inj.mp hx).symm
      exact ⟨by dsimp only; omega, by dsimp only; omega, rfl⟩

/-! ### No zero -/

/-- Without a zero the array is left alone. -/
lemma findLoop_ends (hzero : 0 ∉ a) :
    Ends (fun fuel => findLoop a.length fuel (0, 0, a)) (· = ((a.length : ℤ), 0, a)) := by
  refine Ends.whileLoop_numbered (fun k : ℕ => ((k : ℤ), (0 : ℤ), a)) (k := 0) (fun k hk => ?_)
    (fun k hk => ?_) ?_ (Nat.zero_le _)
  · exact congrArg some (decide_eq_true (show (k : ℤ) < a.length by omega))
  · have hne : a.cell k ≠ 0 := by
      rw [Cells.cell_natCast hk]
      exact fun h => hzero (h ▸ List.getElem_mem hk)
    refine .load (by omega) (by omega) ?_
    simp only [if_neg hne]
    exact .of_eq (fun _ => rfl) (by rw [Nat.cast_succ])
  · exact congrArg some (decide_eq_false (lt_irrefl (a.length : ℤ)))

/-- The array is printed. -/
lemma printLoop_ends (a : Cells ℤ) :
    Ends (fun fuel => printLoop a.length a fuel (0, [])) (· = ((a.length : ℤ), a)) := by
  have hall : ((a.length : ℤ), a) = ((a.length : ℤ), a.take a.length) := by
    rw [List.take_length]
  rw [hall]
  refine Ends.whileLoop_numbered (fun k : ℕ => ((k : ℤ), a.take k)) (k := 0) (fun k hk => ?_)
    (fun k hk => ?_) ?_ (Nat.zero_le _)
  · exact congrArg some (decide_eq_true (show (k : ℤ) < a.length by omega))
  · refine .load (by omega) (by omega) (.of_eq (fun _ => rfl) ?_)
    rw [Cells.cell_natCast hk, Nat.cast_succ, List.take_succ_eq_append_getElem hk]
  · exact congrArg some (decide_eq_false (lt_irrefl (a.length : ℤ)))

/-- Such an array comes out as it was. -/
lemma main_keeps (hzero : 0 ∉ a) : Returns (main a) (a, a) := by
  have hends : Ends (main a) (· = (a, a)) := by
    refine (findLoop_ends hzero).bind fun r hr => ?_
    subst hr
    refine Ends.bind (Q := (· = ((a.length : ℤ) - 1, a))) ?_ fun r hr => ?_
    · exact Ends.whileLoop_false
        (congrArg some (decide_eq_false (show ¬ (a.length : ℤ) - 1 ≥ a.length - 0 by omega))) rfl
    · subst hr
      refine (printLoop_ends a).bind fun r hr => ?_
      subst hr
      exact .of_eq (fun _ => rfl) rfl
  obtain ⟨r, hret, rfl⟩ := hends
  exact hret

/-! ### `main` -/

/-- **When the zeros are moved**: in an array that has none. -/
theorem movesZeros_iff : MovesZeros a ↔ 0 ∉ a := by
  constructor
  · rintro ⟨out, hret⟩ hzero
    refine not_returns (fun fuel => ?_) hret
    rw [main, findLoop_eq_none hzero]
    rfl
  · intro hzero
    have hothers : a.filter (· ≠ 0) = a := by
      refine List.filter_eq_self.mpr fun x hx => decide_eq_true fun h => hzero (h ▸ hx)
    have hnone : a.filter (· = 0) = [] := by
      refine List.filter_eq_nil_iff.mpr fun x hx h => hzero ?_
      rwa [← of_decide_eq_true h]
    refine ⟨a, ?_⟩
    rw [hothers, hnone, List.append_nil]
    exact main_keeps hzero

/-- **The array of the program**: the fifth element is to be taken from behind the array. -/
theorem not_movesZeros : ¬ MovesZeros [0, 1, 23, 0, 9] := by
  rintro ⟨out, hret⟩
  refine not_returns (fun fuel => ?_) hret
  rw [main, findLoop_eq_none List.mem_cons_self]
  rfl

end Wgs.MoveZeros
