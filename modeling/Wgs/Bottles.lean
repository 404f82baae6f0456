import Wgs.Foundation.Loops
import Wgs.Foundation.MachineInt

/-!
`C/huawei/1.c`: three empty bottles are exchanged for a full one, and with two of them left a full
one is borrowed, drunk and given back as three empty ones.

An exchange of `3m + i` bottles leaves `m + i` and counts `m`, which is half of what has gone; so
the count and half of the bottles that are left stay the same together (`water_half`).
-/

namespace Wgs.Bottles

open Foundation

/-! ### The program -/

/-- `while (n > 1)`: the count when the loop is left. -/
def waterLoop : ℕ → ℤ × ℤ → Option ℤ :=
  loop fun _ (n, count) => do
    if n > 1 then
      let i := n.tmod 3
      let m := n.tdiv 3
      let count := toInt32 (count + m)
      let n := toInt32 (m + i)
      if n = 2 then return .stop (toInt32 (count + 1)) else return .next (n, count)
    else return .stop count

/-- `water`: the number that it prints. -/
def water (fuel : ℕ) (n : ℤ) : Option ℤ := waterLoop fuel (n, 0)

/-- `for (j = 0; j < 10; j++)` of `main`, with some of the ten turns left: the lines printed, and
what `main` returns. -/
def mainLoop (fuel : ℕ) : ℕ → List ℤ → Option (List ℤ × ℤ)
  | 0, _ => some ([], 0)
  | _ + 1, [] => some ([], 0)
  | turns + 1, n :: input =>
      if n = 0 then some ([], 1)
      else do
        let line ← water fuel n
        let (lines, code) ← mainLoop fuel turns input
        return (line :: lines, code)

/-- `main`, with the numbers that are left to read. -/
def main (fuel : ℕ) (input : List ℤ) : Option (List ℤ × ℤ) := mainLoop fuel 10 input

/-! ### The exchanges -/

variable {n : ℤ}

/-- **The bottle exchange**: for every number of bottles the loop ends, and prints half of it. -/
theorem water_half (hn : 0 ≤ n) (hint : IsInt32 n) :
    Returns (fun fuel => water fuel n) (n / 2) := by
  have hmax := hint.2
  suffices h : Ends (fun fuel => water fuel n) (· = n / 2) by
    obtain ⟨r, hreturns, rfl⟩ := h
    exact hreturns
  -- the count and half of the bottles that are left are half of all the bottles
  refine Ends.loop (I := fun s => 0 ≤ s.1 ∧ s.1 ≤ n ∧ 0 ≤ s.2 ∧ s.2 + s.1 / 2 = n / 2)
    (fun s => s.1.toNat) (fun s hs => ?_) ⟨hn, le_rfl, le_rfl, zero_add _⟩
  obtain ⟨k, count⟩ := s
  obtain ⟨hk, hkn, hcount, hsum⟩ := hs
  dsimp only at *
  by_cases hmany : k > 1
  · have hquot : k.tdiv 3 = k / 3 := Int.tdiv_eq_ediv_of_nonneg hk
    have hrem : k.tmod 3 = k % 3 := Int.tmod_eq_emod_of_nonneg hk
    have hcount' : toInt32 (count + k / 3) = count + k / 3 :=
      toInt32_of_isInt32 ⟨by omega, by omega⟩
    have hleft : toInt32 (k / 3 + k % 3) = k / 3 + k % 3 := toInt32_of_isInt32 ⟨by omega, by omega⟩
    simp only [hmany, if_true, hquot, hrem, hcount', hleft]
    by_cases htwo : k / 3 + k % 3 = 2
    · have hlast : toInt32 (count + k / 3 + 1) = n / 2 := by
        rw [toInt32_of_isInt32 ⟨by omega, by omega⟩]
        omega
      simp only [htwo, if_true, hlast]
      exact .of_eq (fun _ => rfl) rfl
    · simp only [htwo, if_false]
      exact .of_eq (fun _ => rfl) ⟨⟨by omega, by omega, by omega, by omega⟩, by omega⟩
  · simp only [hmany, if_false]
    refine .of_eq (fun _ => rfl) (?_ : count = n / 2)
    omega

/-- Ten bottles, as in the problem that the program is made for. -/
theorem water_half_ten : Returns (fun fuel => water fuel 10) 5 :=
  water_half (by decide) ⟨by decide, by decide⟩

/-- **All numbers**: `main` prints half of each number up to the first zero, of ten at most. -/
theorem main_prints {input : List ℤ} (hinput : ∀ n ∈ input, 0 ≤ n ∧ IsInt32 n) :
    ∃ code, Returns (fun fuel => main fuel input)
      (((input.take 10).takeWhile (· ≠ 0)).map (· / 2), code) := by
  suffices h : ∀ turns, ∃ code, Returns (fun fuel => mainLoop fuel turns input)
      (((input.take turns).takeWhile (· ≠ 0)).map (· / 2), code) from h 10
  induction input with
  | nil =>
      intro turns
      cases turns <;> exact ⟨0, 0, fun fuel _ => rfl⟩
  | cons n input ih =>
      intro turns
      cases turns with
      | zero => exact ⟨0, 0, fun fuel _ => rfl⟩
      | succ turns =>
          obtain ⟨hn, hrest⟩ := List.forall_mem_cons.mp hinput
          by_cases hzero : n = 0
          · exact ⟨1, 0, fun fuel _ => by simp [mainLoop, hzero]⟩
          · obtain ⟨code, N, hN⟩ := ih hrest turns
            obtain ⟨N', hN'⟩ := water_half hn.1 hn.2
            refine ⟨code, max N N', fun fuel hfuel => ?_⟩
            have hwater : water fuel n = some (n / 2) := hN' fuel (by omega)
            have hloop := hN fuel (by omega)
            simp only at hloop
            simp [mainLoop, hzero, hwater, hloop]

end Wgs.Bottles
