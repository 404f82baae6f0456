import Wgs.Foundation.MachineInt
import Wgs.Foundation.Strings

/-!
`C/huawei/same.c`: does a number have two equal parts?

The parts are to be at least two digits long, and the program looks for parts of just two, which is
enough: longer parts begin with equal pairs (`hasRepeatedPart_iff`).  The second pair is sought up
to the last digit, where it would have the zero behind the string for its second one; but this is
equal to no digit (`exists_pairAt_iff`).
-/

namespace Wgs.SamePart

open Foundation Strings

/-! ### The program -/

/-- `for (j = i+2; j < n; j++)`, from some `j` on: whether `Yes` is printed. -/
def pairLoop (data : Cells UInt8) (n i : ℤ) : ℕ → ℤ → Option Bool :=
  loop fun _ j => do
    if j < n then
      if (← data.load i) = (← data.load j) then
        if (← data.load (i + 1)) = (← data.load (j + 1)) then return .stop true
        else return .next (j + 1)
      else return .next (j + 1)
    else return .stop false

/-- `for (i = 0; i < n - 3; i++)`: `check` at the end, and what is printed. -/
def partLoop (data : Cells UInt8) (n : ℤ) : ℕ → ℤ → Option (ℤ × List String) :=
  loop fun fuel i => do
    if i < n - 3 then
      if ← pairLoop data n i fuel (i + 2) then return .stop (1, ["Yes\n"])
      else return .next (i + 1)
    else return .stop (0, [])

/-- `main`, for the array as it finds it and the input: what is printed. -/
def main (data : Cells UInt8) (fuel : ℕ) (stdin : List UInt8) : Option (List String) := do
  let data ← scanned data stdin
  let n := toInt32 (← Strings.strlen data)
  let (check, out) ← partLoop data n fuel 0
  if check = 0 then return out ++ ["No\n"] else return out

/-- Two equal parts, of two characters at least, that do not overlap. -/
def HasRepeatedPart {α : Type} (text : List α) : Prop :=
  ∃ part u v w, 2 ≤ part.length ∧ text = u ++ part ++ v ++ part ++ w

/-! ### Pairs -/

section Pairs

variable {α : Type} {text : List α}

lemma split_pair (text : List α) {i : ℕ} (hi : i + 1 < text.length) :
    text = text.take i ++ [text[i], text[i + 1]] ++ text.drop (i + 2) := by
  calc text = text.take i ++ text.drop i := (List.take_append_drop i text).symm
    _ = text.take i ++ [text[i], text[i + 1]] ++ text.drop (i + 2) := by
        rw [List.drop_eq_getElem_cons (by omega), List.drop_eq_getElem_cons hi,
          List.append_assoc]
        rfl

lemma getElem?_middle {u part w : List α} {k : ℕ} (hk : k < part.length) :
    (u ++ part ++ w)[u.length + k]? = part[k]? := by
  rw [List.append_assoc, List.getElem?_append_right (by omega), Nat.add_sub_cancel_left,
    List.getElem?_append_left hk]

/-- A part begins with a pair. -/
lemma HasRepeatedPart.exists_pair (h : HasRepeatedPart text) : ∃ i j : ℕ, i + 2 ≤ j
    ∧ j + 1 < text.length ∧ text[i]? = text[j]? ∧ text[i + 1]? = text[j + 1]? := by
  obtain ⟨part, u, v, w, hpart, rfl⟩ := h
  have hlen : (u ++ part ++ v).length = u.length + part.length + v.length := by
    rw [List.length_append, List.length_append]
  have htotal : (u ++ part ++ v ++ part ++ w).length
      = (u ++ part ++ v).length + part.length + w.length := by
    rw [List.length_append, List.length_append]
  have hboth (k : ℕ) (hk : k < part.length) : (u ++ part ++ v ++ part ++ w)[u.length + k]?
      = (u ++ part ++ v ++ part ++ w)[(u ++ part ++ v).length + k]? := by
    rw [getElem?_middle hk, List.append_assoc _ v, List.append_assoc _ (v ++ part),
      getElem?_middle hk]
  exact ⟨u.length, (u ++ part ++ v).length, by omega, by omega, hboth 0 (by omega),
    hboth 1 (by omega)⟩

/-- A pair is a part. -/
lemma hasRepeatedPart_of_pair {i j : ℕ} (hij : i + 2 ≤ j) (hj : j + 1 < text.length)
    (heq : text[i]? = text[j]?) (heq' : text[i + 1]? = text[j + 1]?) : HasRepeatedPart text := by
  have hi : i + 1 < text.length := by omega
  rw [List.getElem?_eq_getElem (by omega), List.getElem?_eq_getElem (by omega),
    Option.some_inj] at heq
  rw [List.getElem?_eq_getElem hi, List.getElem?_eq_getElem hj, Option.some_inj] at heq'
  -- the second pair is in what is left behind the first one
  obtain ⟨k, rfl⟩ := Nat.exists_eq_add_of_le hij
  have hrest := split_pair (text.drop (i + 2)) (i := k) (by rw [List.length_drop]; omega)
  rw [List.getElem_drop, List.getElem_drop] at hrest
  refine ⟨[text[i], text[i + 1]], text.take i, (text.drop (i + 2)).take k,
    (text.drop (i + 2)).drop (k + 2), le_rfl, ?_⟩
  calc text = text.take i ++ [text[i], text[i + 1]] ++ text.drop (i + 2) := split_pair text hi
    _ = text.take i ++ [text[i], text[i + 1]] ++ ((text.drop (i + 2)).take k
          ++ [text[i + 2 + k], text[i + 2 + (k + 1)]] ++ (text.drop (i + 2)).drop (k + 2)) := by
        rw [← hrest]
    _ = text.take i ++ [text[i], text[i + 1]] ++ (text.drop (i + 2)).take k
          ++ [text[i], text[i + 1]] ++ (text.drop (i + 2)).drop (k + 2) := by
        rw [heq, heq', ← List.append_assoc, ← List.append_assoc]
        rfl

/-- **Pairs are enough.** -/
lemma hasRepeatedPart_iff : HasRepeatedPart text ↔ ∃ i j : ℕ, i + 2 ≤ j ∧ j + 1 < text.length
    ∧ text[i]? = text[j]? ∧ text[i + 1]? = text[j + 1]? := by
  refine ⟨HasRepeatedPart.exists_pair, ?_⟩
  rintro ⟨i, j, hij, hj, heq, heq'⟩
  exact hasRepeatedPart_of_pair hij hj heq heq'

end Pairs

/-! ### The loops -/

variable {data data' : Cells UInt8} {stdin text : List UInt8} {n i : ℤ}

/-- A pair that is the same as the one at `i`. -/
def PairAt (data : Cells UInt8) (i j : ℤ) : Prop :=
  data.cell i = data.cell j ∧ data.cell (i + 1) = data.cell (j + 1)

/-- **The inner loop** looks for the pair at `i`. -/
lemma pairLoop_ends (hi : 0 ≤ i) (hin : i + 1 < n) (hn : n < data.length) :
    Ends (fun fuel => pairLoop data n i fuel (i + 2)) fun found =>
      (∃ j, i + 2 ≤ j ∧ j < n ∧ PairAt data i j) ∧ found = true
      ∨ (¬ ∃ j, i + 2 ≤ j ∧ j < n ∧ PairAt data i j) ∧ found = false := by
  refine Ends.loop_search (P := PairAt data i) (fun j hij hj hpair => ?_)
    (fun j hij hj hpair => ?_) (fun j hj => ?_)
  · simp only [if_pos hj]
    refine .load hi (by omega) (.load (by omega) (by omega) ?_)
    rw [if_pos hpair.1]
    refine .load (by omega) (by omega) (.load (by omega) (by omega) ?_)
    rw [if_pos hpair.2]
    exact .of_eq (fun _ => rfl) rfl
  · simp only [if_pos hj]
    refine .load hi (by omega) (.load (by omega) (by omega) ?_)
    by_cases hfirst : data.cell i = data.cell j
    · rw [if_pos hfirst]
      refine .load (by omega) (by omega) (.load (by omega) (by omega) ?_)
      rw [if_neg fun hsecond => hpair ⟨hfirst, hsecond⟩]
      exact .of_eq (fun _ => rfl) rfl
    · rw [if_neg hfirst]
      exact .of_eq (fun _ => rfl) rfl
  · simp only [if_neg (not_lt.mpr hj)]
    exact .of_eq (fun _ => rfl) rfl

/-- **The outer loop** looks for any two of the same. -/
lemma partLoop_ends (hn : n < data.length) :
    Ends (fun fuel => partLoop data n fuel 0) fun r =>
      (∃ i, 0 ≤ i ∧ i < n - 3 ∧ ∃ j, i + 2 ≤ j ∧ j < n ∧ PairAt data i j) ∧ r = (1, ["Yes\n"])
      ∨ (¬ ∃ i, 0 ≤ i ∧ i < n - 3 ∧ ∃ j, i + 2 ≤ j ∧ j < n ∧ PairAt data i j) ∧ r = (0, []) := by
  refine Ends.loop_search (P := fun i => ∃ j, i + 2 ≤ j ∧ j < n ∧ PairAt data i j)
    (fun i hi hin hpair => ?_) (fun i hi hin hpair => ?_) (fun i hin => ?_)
  · simp only [if_pos hin]
    refine (pairLoop_ends hi (by omega) hn).bind fun found hfound => ?_
    obtain rfl : found = true := (hfound.resolve_right fun h => h.1 hpair).2
    exact .of_eq (fun _ => rfl) rfl
  · simp only [if_pos hin]
    refine (pairLoop_ends hi (by omega) hn).bind fun found hfound => ?_
    obtain rfl : found = false := (hfound.resolve_left fun h => hpair h.1).2
    exact .of_eq (fun _ => rfl) rfl
  · simp only [if_neg (not_lt.mpr hin)]
    exact .of_eq (fun _ => rfl) rfl

/-- The pairs that the loops look at are those of the string: the zero behind it belongs to none. -/
lemma exists_pairAt_iff (htext : string data = some text) :
    (∃ i : ℤ, 0 ≤ i ∧ i < text.length - 3 ∧ ∃ j, i + 2 ≤ j ∧ j < text.length ∧ PairAt data i j)
      ↔ HasRepeatedPart text := by
  rw [hasRepeatedPart_iff]
  constructor
  · rintro ⟨i, hi, hin, j, hij, hj, hpair⟩
    obtain ⟨i, rfl⟩ := Int.eq_ofNat_of_zero_le hi
    obtain ⟨j, rfl⟩ := Int.eq_ofNat_of_zero_le (show 0 ≤ j by omega)
    obtain ⟨hfirst, hsecond⟩ := hpair
    have hlast : j + 1 < text.length := by
      by_contra hend
      have hzero : ((j : ℕ) : ℤ) + 1 = text.length := by omega
      rw [hzero] at hsecond
      exact cell_ne_of_string htext (k := i + 1) (by omega) hsecond
    refine ⟨i, j, by omega, hlast, ?_, ?_⟩
    · rw [getElem?_of_string htext (by omega), getElem?_of_string htext (by omega), hfirst]
    · rw [getElem?_of_string htext (by omega), getElem?_of_string htext hlast, Nat.cast_succ,
        Nat.cast_succ, hsecond]
  · rintro ⟨i, j, hij, hj, hfirst, hsecond⟩
    rw [getElem?_of_string htext (by omega), getElem?_of_string htext (by omega),
      Option.some_inj] at hfirst
    rw [getElem?_of_string htext (by omega), getElem?_of_string htext hj, Option.some_inj,
      Nat.cast_succ, Nat.cast_succ] at hsecond
    exact ⟨i, by omega, by omega, j, by omega, by omega, hfirst, hsecond⟩

/-! ### `main` -/

/-- **The answer is right**: `Yes` for a word with two equal parts, `No` for any other one, and
nothing else. -/
theorem main_finds_part (hdata : data.length = 100) (hscan : scanned data stdin = some data')
    (htext : string data' = some text) :
    HasRepeatedPart text ∧ Returns (fun fuel => main data fuel stdin) ["Yes\n"]
      ∨ ¬ HasRepeatedPart text ∧ Returns (fun fuel => main data fuel stdin) ["No\n"] := by
  have hlen := length_scanned hscan
  have hlt := length_lt_of_string htext
  have hint : toInt32 text.length = text.length := toInt32_of_isInt32 ⟨by omega, by omega⟩
  have hends : Ends (fun fuel => main data fuel stdin) fun out =>
      HasRepeatedPart text ∧ out = ["Yes\n"] ∨ ¬ HasRepeatedPart text ∧ out = ["No\n"] := by
    simp only [main, hscan, strlen_eq htext, hint, Option.bind_eq_bind, Option.bind_some]
    refine (partLoop_ends (n := text.length) (by omega)).bind fun r hr => ?_
    rw [exists_pairAt_iff htext] at hr
    rcases hr with ⟨hpart, rfl⟩ | ⟨hnone, rfl⟩
    · exact .of_eq (fun _ => rfl) (Or.inl ⟨hpart, rfl⟩)
    · exact .of_eq (fun _ => rfl) (Or.inr ⟨hnone, rfl⟩)
  obtain ⟨out, hret, ⟨hpart, rfl⟩ | ⟨hnone, rfl⟩⟩ := hends
  · exact Or.inl ⟨hpart, hret⟩
  · exact Or.inr ⟨hnone, hret⟩

/-- The number 12386123 of the task. -/
theorem main_finds_part_task :
    Returns (fun fuel => main (List.replicate 100 0) fuel [49, 50, 51, 56, 54, 49, 50, 51, 10])
      ["Yes\n"] := by
  obtain ⟨data', hscan, htext⟩ := scanned_word (List.replicate 100 0)
    [49, 50, 51, 56, 54, 49, 50, 51] [] (List.cons_ne_nil _ _) rfl (by decide)
    (by decide)
  have hpart : HasRepeatedPart [(49 : UInt8), 50, 51, 56, 54, 49, 50, 51] :=
    ⟨[49, 50, 51], [], [56, 54], [], by decide, rfl⟩
  exact ((main_finds_part List.length_replicate hscan htext).resolve_right
    fun h => h.1 hpart).2

end Wgs.SamePart
