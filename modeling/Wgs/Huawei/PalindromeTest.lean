import Wgs.Foundation.MachineInt
import Wgs.Foundation.Mirrors
import Wgs.Foundation.Strings

/-!
`C/huawei/huiwen.c`: is a word a palindrome?

Two indices go towards each other, and the first two characters that differ end the loop with
`No`.  Whether there were none is then told from the indices: they have met at the middle, one
behind the other (`compareLoop_ends`).  But a word of odd length has a character in the middle,
which both indices go past, so about such a palindrome nothing is said (`main_ends`).
-/

namespace Wgs.PalindromeTest

open Foundation Strings

/-! ### The program -/

/-- `for (i = n-1; i >= mid; i--)`: `i` and `j` at the end, and what is printed. -/
def compareLoop (str : Cells UInt8) (mid : ℤ) : ℕ → ℤ × ℤ → Option (ℤ × ℤ × List String) :=
  loop fun _ (i, j) => do
    if i ≥ mid then
      if (← str.load j) ≠ (← str.load i) then return .stop (i, j + 1, ["No\n"])
      else return .next (i - 1, j + 1)
    else return .stop (i, j, [])

/-- `main`, for the array as it finds it and the input: what is printed. -/
def main (str : Cells UInt8) (fuel : ℕ) (stdin : List UInt8) : Option (List String) := do
  let str ← scanned str stdin
  let n := toInt32 (← Strings.strlen str)
  let mid := n.tdiv 2
  let (i, j, out) ← compareLoop str mid fuel (n - 1, 0)
  if j = i + 1 then return out ++ ["Yes\n"] else return out

/-- The right verdict about a word is all that is printed. -/
def PrintsVerdict (str : Cells UInt8) (stdin text : List UInt8) : Prop :=
  Returns (fun fuel => main str fuel stdin) [if text = text.reverse then "Yes\n" else "No\n"]

/-! ### The loop -/

variable {str str' : Cells UInt8} {stdin text : List UInt8} {n : ℤ}

/-- **The loop**: when all characters agree, the indices have met at the middle. -/
lemma compareLoop_ends (hn : 1 ≤ n) (hlen : n ≤ str.length) :
    Ends (fun fuel => compareLoop str (n / 2) fuel (n - 1, 0)) fun r =>
      Mirrored str.cell 0 (n - 1) ∧ r = (n / 2 - 1, n - n / 2, [])
      ∨ ¬ Mirrored str.cell 0 (n - 1) ∧ r.2.1 ≠ r.1 + 1 ∧ r.2.2 = ["No\n"] := by
  refine Ends.loop
    (I := fun s : ℤ × ℤ => 0 ≤ s.2 ∧ s.1 + s.2 = n - 1 ∧ n / 2 - 1 ≤ s.1
      ∧ ∀ k, 0 ≤ k → k < s.2 → str.cell k = str.cell (n - 1 - k))
    (fun s => (s.1 + 1).toNat) (fun s hs => ?_)
    ⟨le_rfl, by dsimp only; omega, by dsimp only; omega, fun k hk hlt => by omega⟩
  obtain ⟨i, j⟩ := s
  obtain ⟨hj, hsum, hi, hagree⟩ := hs
  dsimp only at *
  by_cases hgo : i ≥ n / 2
  · simp only [if_pos hgo]
    refine .load hj (by omega) (.load (by omega) (by omega) ?_)
    by_cases hne : str.cell j ≠ str.cell i
    · rw [if_pos hne]
      refine .of_eq (fun _ => rfl) (Or.inr ⟨fun hmirror => hne ?_, ?_, rfl⟩)
      · exact hmirror j i hj (by omega) (by omega)
      · -- they would have to be one place, with one character
        intro hmeet
        dsimp only at hmeet
        obtain rfl : i = j := by omega
        exact hne rfl
    · rw [if_neg hne]
      refine .of_eq (fun _ => rfl) ⟨⟨?_, ?_, ?_, fun k hk hlt => ?_⟩, ?_⟩ <;> dsimp only at *
      · omega
      · omega
      · omega
      · rcases (Int.lt_add_one_iff.mp hlt).lt_or_eq with hlt | rfl
        · exact hagree k hk hlt
        · rw [not_not.mp hne]
          congr 1
          omega
      · omega
  · simp only [if_neg hgo]
    refine .of_eq (fun _ => rfl) (Or.inl ⟨fun a b ha hab hsum' => ?_, ?_⟩)
    · rw [hagree a ha (by omega)]
      congr 1
      omega
    · rw [show i = n / 2 - 1 by omega, show j = n - n / 2 by omega]

/-! ### `main` -/

/-- The word, in terms of the places. -/
lemma eq_reverse_iff (h : string str = some text) :
    text = text.reverse ↔ Mirrored str.cell 0 (text.length - 1) := by
  have hlen := length_lt_of_string h
  calc text = text.reverse
      ↔ text.Palindrome := by rw [List.Palindrome.iff_reverse_eq, eq_comm]
    _ ↔ (str.segment 0 (text.length - 1)).Palindrome := by rw [segment_of_string h]
    _ ↔ Mirrored str.cell 0 (text.length - 1) := palindrome_segment_iff le_rfl (by omega)

/-- **What is printed**: nothing for a palindrome of odd length. -/
lemma main_ends (hstr : str.length = 100) (hscan : scanned str stdin = some str')
    (htext : string str' = some text) (hne : text ≠ []) :
    Ends (fun fuel => main str fuel stdin)
      (· = if text = text.reverse then if Even text.length then ["Yes\n"] else []
        else ["No\n"]) := by
  have hlen := length_scanned hscan
  have hlt := length_lt_of_string htext
  have hpos := List.length_pos_iff.mpr hne
  have hint : toInt32 text.length = text.length := toInt32_of_isInt32 ⟨by omega, by omega⟩
  have hmid : (text.length : ℤ).tdiv 2 = text.length / 2 := Int.tdiv_eq_ediv_of_nonneg (by omega)
  simp only [main, hscan, strlen_eq htext, hint, hmid, Option.bind_eq_bind, Option.bind_some]
  refine (compareLoop_ends (n := text.length) (by omega) (by omega)).bind fun r hr => ?_
  obtain ⟨i, j, out⟩ := r
  rw [← eq_reverse_iff htext] at hr
  rcases hr with ⟨hsame, heq⟩ | ⟨hdiffer, hmeet, hout⟩
  · obtain ⟨rfl, hrest⟩ := Prod.mk.inj heq
    obtain ⟨rfl, rfl⟩ := Prod.mk.inj hrest
    rw [if_pos hsame]
    by_cases heven : Even text.length
    · obtain ⟨c, hc⟩ := id heven
      have hmeet : (text.length : ℤ) - text.length / 2 = text.length / 2 - 1 + 1 := by omega
      rw [if_pos heven]
      simp only [if_pos hmeet]
      exact .of_eq (fun _ => rfl) rfl
    · obtain ⟨c, hc⟩ := Nat.not_even_iff_odd.mp heven
      have hmeet : ¬ (text.length : ℤ) - text.length / 2 = text.length / 2 - 1 + 1 := by omega
      rw [if_neg heven]
      simp only [if_neg hmeet]
      exact .of_eq (fun _ => rfl) rfl
  · dsimp only at hmeet hout
    rw [if_neg hdiffer]
    simp only [if_neg hmeet]
    exact .of_eq (fun _ => rfl) hout

/-- **When the verdict is right**: the word has an even length or is no palindrome. -/
theorem printsVerdict_iff (hstr : str.length = 100) (hscan : scanned str stdin = some str')
    (htext : string str' = some text) (hne : text ≠ []) :
    PrintsVerdict str stdin text ↔ Even text.length ∨ text ≠ text.reverse := by
  obtain ⟨out, hret, rfl⟩ := main_ends hstr hscan htext hne
  constructor
  · intro hprints
    have hout := hprints.unique hret
    by_contra hnot
    rw [not_or, not_not] at hnot
    obtain ⟨hodd, hsame⟩ := hnot
    rw [if_pos hsame, if_pos hsame, if_neg hodd] at hout
    cases hout
  · intro hcond
    have hout : (if text = text.reverse then if Even text.length then ["Yes\n"] else []
        else ["No\n"]) = [if text = text.reverse then "Yes\n" else "No\n"] := by
      rcases hcond with heven | hdiffer
      · rw [if_pos heven]
        split_ifs <;> rfl
      · rw [if_neg hdiffer, if_neg hdiffer]
    rwa [hout] at hret

/-- The word `abba`. -/
theorem printsVerdict_iff_abba :
    PrintsVerdict (List.replicate 100 0) [97, 98, 98, 97, 10] [97, 98, 98, 97] := by
  obtain ⟨str', hscan, htext⟩ := scanned_word (List.replicate 100 0)
    [97, 98, 98, 97] [] (List.cons_ne_nil _ _) rfl (by decide) (by decide)
  exact (printsVerdict_iff List.length_replicate hscan htext (List.cons_ne_nil _ _)).mpr
    (Or.inl (by decide))

/-- **About `aba` nothing is said.** -/
theorem odd_palindrome_no_verdict :
    Returns (fun fuel => main (List.replicate 100 0) fuel [97, 98, 97, 10]) []
      ∧ ¬ PrintsVerdict (List.replicate 100 0) [97, 98, 97, 10] [97, 98, 97] := by
  obtain ⟨str', hscan, htext⟩ := scanned_word (List.replicate 100 0)
    [97, 98, 97] [] (List.cons_ne_nil _ _) rfl (by decide) (by decide)
  obtain ⟨out, hret, rfl⟩ := main_ends List.length_replicate hscan htext (List.cons_ne_nil _ _)
  exact ⟨hret, fun hprints => by cases hprints.unique hret⟩

end Wgs.PalindromeTest
