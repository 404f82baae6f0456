import Mathlib.Data.List.GetD
import Mathlib.Data.Nat.Digits.Lemmas
import Wgs.Foundation.Cells
import Wgs.Foundation.MachineInt

/-!
`C/C++/ten-to-any.cpp`: a number in another base.

The digits come out of repeated division, the last one first, and are put in an array, from which
they are printed backwards.  The division is right (`divideLoop_ends`), but the loop that prints
begins at the cell behind the last digit.  What stands there is printed in front of the number, so
what is printed is never the number (`not_printsNumber`): either the value is larger, or there is a
zero in front, or a character that is no digit.
-/

namespace Wgs.BaseConversion

open Foundation

/-! ### The program -/

/-- `while (n != 0)`: `n`, `m` and `s`. -/
def divideLoop (p : ℤ) : ℕ → ℤ × ℤ × Cells ℤ → Option (ℤ × ℤ × Cells ℤ) :=
  whileLoop
    (fun (n, _, _) => return n ≠ 0)
    (fun _ (n, m, s) =>
      if p = 0 then none
      else do
        let c := toInt32 (n.tmod p)
        let s ← s.store m c
        return (n.tdiv p, m + 1, s))

/-- An `int` as `cout` prints it. -/
def decimal (x : ℤ) : List Char :=
  if x < 0 then '-' :: Nat.toDigits 10 x.natAbs else Nat.toDigits 10 x.natAbs

/-- `if (s[k] >= 10) cout << (char)(s[k] + 55); else cout << s[k];` -/
def shown (x : ℤ) : Option (List Char) :=
  if x ≥ 10 then do
    let code ← definedInt32 (x + 55)
    return [Char.ofNat (code % 256).toNat]
  else return decimal x

/-- What is printed between the second `(` and `)`, and the places of `s` that it is read from. -/
structure Output where
  text : List Char
  reads : List ℤ
  deriving DecidableEq

/-- `for (int k = m; k >= 0; k--)`, from some `k` on. -/
def printLoop (s : Cells ℤ) : ℕ → ℤ × Output → Option (ℤ × Output) :=
  whileLoop
    (fun (k, _) => return k ≥ 0)
    (fun _ (k, out) => do
      let x ← s.load k
      let text ← shown x
      return (k - 1, ⟨out.text ++ text, out.reads ++ [k]⟩))

/-- `main`, for the numbers that it reads and the array as it finds it: `m` at the end, and what is
printed. -/
def main (s : Cells ℤ) (fuel : ℕ) (n p : ℤ) : Option (ℤ × Output) := do
  let (_, m, s) ← divideLoop p fuel (n, 0, s)
  let (_, out) ← printLoop s fuel (m, ⟨[], []⟩)
  return (m, out)

/-- The value of a digit, up to `Z = 35`. -/
def digitValue (c : Char) : Option ℕ :=
  if '0' ≤ c ∧ c ≤ '9' then some (c.toNat - 48)
  else if 'A' ≤ c ∧ c ≤ 'Z' then some (c.toNat - 55)
  else none

/-- The text has a digit that is not zero in front, and its value in base `p` is `n`. -/
def IsNumeral (p n : ℕ) (text : List Char) : Prop :=
  ∃ d ds, text.map digitValue = (d :: ds).map some ∧ d ≠ 0 ∧ Nat.ofDigits p (d :: ds).reverse = n

/-- The number is printed, from digits that the division has written. -/
def PrintsNumber (s : Cells ℤ) (n p : ℕ) : Prop :=
  ∃ m out, Returns (fun fuel => main s fuel n p) (m, out) ∧ IsNumeral p n out.text
    ∧ ∀ k ∈ out.reads, 0 ≤ k ∧ k < m

/-! ### Digits -/

variable {s : Cells ℤ} {n p k d : ℕ} {x m : ℤ} {text : List Char} {out : Output}

/-- A digit is printed as the character of its value. -/
lemma shown_digit (hd : d < 36) : ∃ c, shown d = some [c] ∧ digitValue c = some d := by
  have hdigits : ∀ d < 36, (shown (d : ℕ)).map (List.map digitValue) = some [some d] := by
    decide
  obtain ⟨text, htext, hmap⟩ := Option.map_eq_some_iff.mp (hdigits d hd)
  obtain ⟨c, rfl, hc⟩ := List.map_eq_singleton_iff.mp hmap
  exact ⟨c, htext, hc⟩

lemma shown_ne_nil (h : shown x = some text) : text ≠ [] := by
  rw [shown] at h
  split_ifs at h
  · obtain ⟨code, -, hcode⟩ := Option.bind_eq_some_iff.mp h
    obtain rfl := Option.some_inj.mp hcode
    exact List.cons_ne_nil _ _
  · obtain rfl := Option.some_inj.mp h
    rw [decimal]
    split_ifs
    · exact List.cons_ne_nil _ _
    · exact Nat.toDigits_ne_nil

/-- **Something in front of a numeral**: it is none of that number. -/
lemma not_isNumeral {front digits : List Char} {ds : List ℕ} (hp : 2 ≤ p) (hfront : front ≠ [])
    (hdigits : digits.map digitValue = ds.reverse.map some) (hds : Nat.ofDigits p ds = n) :
    ¬ IsNumeral p n (front ++ digits) := by
  rintro ⟨d, es, hmap, hd, hvalue⟩
  rw [List.map_append, hdigits] at hmap
  obtain ⟨first, rest, hsplit, hfirst, hrest⟩ := List.map_eq_append_iff.mp hmap.symm
  have hrest : rest = ds.reverse := (Option.some_injective ℕ).list_map hrest
  cases first with
  | nil => exact hfront (List.map_eq_nil_iff.mp hfirst.symm)
  | cons e first =>
      obtain ⟨rfl, rfl⟩ := List.cons.inj hsplit
      -- what is in front adds to the value
      have hvalue' : n + p ^ ds.length * (Nat.ofDigits p first.reverse
          + p ^ first.reverse.length * d) = n := by
        calc n + p ^ ds.length * (Nat.ofDigits p first.reverse + p ^ first.reverse.length * d)
            = Nat.ofDigits p (ds ++ (first.reverse ++ [d])) := by
              rw [Nat.ofDigits_append, hds, Nat.ofDigits_append, Nat.ofDigits_singleton]
          _ = Nat.ofDigits p (d :: (first ++ rest)).reverse := by
              rw [hrest, List.reverse_cons, List.reverse_append, List.reverse_reverse,
                List.append_assoc]
          _ = n := hvalue
      have hpos : 0 < p ^ ds.length * (Nat.ofDigits p first.reverse
          + p ^ first.reverse.length * d) := by positivity
      omega

/-! ### The loops -/

/-- One division takes off the last digit of what is left of the number. -/
lemma toInt32_tmod_eq (hp : 2 ≤ p) (hp' : p ≤ 36) (hk : k < (Nat.digits p n).length) :
    toInt32 (((n / p ^ k : ℕ) : ℤ).tmod p) = (((Nat.digits p n)[k] : ℕ) : ℤ) := by
  have hdigit : (Nat.digits p n)[k] = n / p ^ k % p := by
    rw [← Nat.getD_digits n k hp, List.getD_eq_getElem _ _ hk]
  have hmod : n / p ^ k % p < p := Nat.mod_lt _ (by omega)
  rw [hdigit, ← Int.ofNat_tmod]
  exact toInt32_of_isInt32 ⟨by omega, by omega⟩

lemma tdiv_eq (n p k : ℕ) : ((n / p ^ k : ℕ) : ℤ).tdiv p = ((n / p ^ (k + 1) : ℕ) : ℤ) := by
  rw [← Int.ofNat_tdiv, Nat.div_div_eq_div_mul, pow_succ]

/-- **The division**: the digits are in the array, the last one first. -/
lemma divideLoop_ends (hp : 2 ≤ p) (hp' : p ≤ 36) (hfit : (Nat.digits p n).length ≤ s.length) :
    Ends (fun fuel => divideLoop p fuel (n, 0, s))
      (· = (0, ((Nat.digits p n).length : ℤ),
        Cells.fill ((Nat.digits p n).map Nat.cast) s (Nat.digits p n).length)) := by
  set ds : List ℕ := Nat.digits p n with hds
  have hlt (k : ℕ) : k < ds.length ↔ p ^ k ≤ n := Nat.lt_digits_length_iff (by omega) n
  have hlast : n / p ^ ds.length = 0 :=
    Nat.div_eq_of_lt (not_le.mp fun h => lt_irrefl _ ((hlt _).mpr h))
  -- what is left after `k` divisions
  have hstart : ((n : ℤ), (0 : ℤ), s)
      = (((n / p ^ 0 : ℕ) : ℤ), ((0 : ℕ) : ℤ), Cells.fill (ds.map Nat.cast) s 0) := by
    simp [Cells.fill]
  have hend : ((0 : ℤ), (ds.length : ℤ), Cells.fill (ds.map Nat.cast) s ds.length)
      = (((n / p ^ ds.length : ℕ) : ℤ), (ds.length : ℤ),
        Cells.fill (ds.map Nat.cast) s ds.length) := by
    rw [hlast, Nat.cast_zero]
  rw [hstart, hend]
  refine Ends.whileLoop_numbered
    (fun k : ℕ => (((n / p ^ k : ℕ) : ℤ), (k : ℤ), Cells.fill (ds.map Nat.cast) s k))
    (fun k hk => ?_) (fun k hk => ?_) ?_ (Nat.zero_le _)
  · have hpos : 0 < n / p ^ k := Nat.div_pos ((hlt k).mp hk) (by positivity)
    have hne : ((n / p ^ k : ℕ) : ℤ) ≠ 0 := by omega
    exact congrArg some (decide_eq_true hne)
  · have hzero : (p : ℤ) ≠ 0 := by omega
    have hk' : k < (ds.map Nat.cast : List ℤ).length := by rwa [List.length_map]
    have hstore := Cells.store_fill (s := s) hk' (by rwa [List.length_map])
    rw [List.getElem_map] at hstore
    refine .of_eq (fun _ => ?_) rfl
    dsimp only
    rw [if_neg hzero, toInt32_tmod_eq hp hp' hk, hstore, tdiv_eq, Nat.cast_succ]
    rfl
  · rw [hlast]
    rfl

/-- **The digits are printed**, the first one first, when the loop gets to them. -/
lemma printLoop_digits {ds : List ℕ} (hds : ∀ d ∈ ds, d < 36) (hk : k ≤ ds.length)
    (hload : ∀ i (hi : i < ds.length), s.load i = some ((ds[i] : ℕ) : ℤ)) (out : Output) :
    Ends (fun fuel => printLoop s fuel ((k : ℤ) - 1, out)) fun r =>
      ∃ text, r.2.text = out.text ++ text
        ∧ text.map digitValue = (ds.take k).reverse.map some ∧ ∀ i ∈ out.reads, i ∈ r.2.reads := by
  induction k generalizing out with
  | zero =>
      exact Ends.whileLoop_false rfl ⟨[], (List.append_nil _).symm, rfl, fun i hi => hi⟩
  | succ k ih =>
      obtain ⟨c, hshown, hc⟩ := shown_digit (hds ds[k] (List.getElem_mem hk))
      have hk' : ((k + 1 : ℕ) : ℤ) - 1 = k := by omega
      have htest : (k : ℤ) ≥ 0 := by omega
      rw [hk']
      refine Ends.whileLoop_true (congrArg some (decide_eq_true htest)) ?_
      refine .of_eq (r := ((k : ℤ) - 1, ⟨out.text ++ [c], out.reads ++ [(k : ℤ)]⟩)) (fun _ => ?_)
        ((ih (by omega) _).mono fun r hr => ?_)
      · dsimp only
        rw [hload k hk, Option.bind_eq_bind, Option.bind_some, hshown]
        rfl
      · obtain ⟨text, htext, hdigits, hreads⟩ := hr
        refine ⟨c :: text, ?_, ?_, fun i hi => hreads i (List.mem_append_left _ hi)⟩
        · rw [htext, List.append_assoc, List.singleton_append]
        · rw [List.map_cons, hdigits, hc, List.take_succ_eq_append_getElem hk, List.reverse_append]
          rfl

/-- A cell is read, and printed, before the loop goes on. -/
lemma exists_shown {fuel : ℕ} {r : ℤ × Output} (hm : 0 ≤ m)
    (h : printLoop s fuel (m, out) = some r) :
    ∃ x front, s.load m = some x ∧ shown x = some front := by
  cases fuel with
  | zero => cases h
  | succ fuel =>
      obtain ⟨c, hc, -⟩ := Option.bind_eq_some_iff.mp h
      obtain ⟨b, hb, hc⟩ := Option.bind_eq_some_iff.mp hc
      obtain rfl : b = true := by
        rw [← Option.some_inj.mp hb]
        exact decide_eq_true hm
      obtain ⟨r', hbody, -⟩ := Option.bind_eq_some_iff.mp hc
      obtain ⟨x, hx, hbody⟩ := Option.bind_eq_some_iff.mp hbody
      obtain ⟨front, hfront, -⟩ := Option.bind_eq_some_iff.mp hbody
      exact ⟨x, front, hx, hfront⟩

/-! ### `main` -/

/-- What is printed is a numeral of `n`, behind whatever the cell behind the digits is shown as. -/
structure NumeralBehind (s : Cells ℤ) (n p : ℕ) (m : ℤ) (out : Output) : Prop where
  count : m = (Nat.digits p n).length
  text : ∃ x front digits, s.load m = some x ∧ shown x = some front ∧ out.text = front ++ digits
    ∧ digits.map digitValue = (Nat.digits p n).reverse.map some
  reads : m ∈ out.reads

/-- **What is printed**, for whatever number may stand behind the digits. -/
lemma main_ends {front : List Char} (hp : 2 ≤ p) (hp' : p ≤ 36)
    (hfit : (Nat.digits p n).length ≤ s.length)
    (hload : s.load (Nat.digits p n).length = some x) (hshown : shown x = some front) :
    Ends (fun fuel => main s fuel n p) fun r => NumeralBehind s n p r.1 r.2 := by
  set ds : List ℕ := Nat.digits p n with hds
  have hlen : (ds.map Nat.cast : List ℤ).length = ds.length := List.length_map _
  have hlast : (Cells.fill (ds.map Nat.cast) s ds.length).load ds.length = some x := by
    rw [Cells.load_fill_of_le le_rfl hlen.ge, hload]
  have hdigits (i : ℕ) (hi : i < ds.length) :
      (Cells.fill (ds.map Nat.cast) s ds.length).load i = some ((ds[i] : ℕ) : ℤ) := by
    rw [Cells.load_fill_of_lt hi hlen.ge, List.getElem?_map, List.getElem?_eq_getElem hi]
    rfl
  have hsmall (d : ℕ) (hd : d ∈ ds) : d < 36 :=
    (Nat.digits_lt_base (by omega) hd).trans_le hp'
  refine (divideLoop_ends hp hp' hfit).bind fun r hr => ?_
  subst hr
  refine Ends.bind (Q := fun r : ℤ × Output => ∃ digits, r.2.text = front ++ digits
    ∧ digits.map digitValue = ds.reverse.map some ∧ (ds.length : ℤ) ∈ r.2.reads) ?_ fun r hr => ?_
  · have htest : (ds.length : ℤ) ≥ 0 := by omega
    refine Ends.whileLoop_true (congrArg some (decide_eq_true htest)) ?_
    refine .of_eq (r := ((ds.length : ℤ) - 1, ⟨front, [(ds.length : ℤ)]⟩)) (fun _ => ?_)
      ((printLoop_digits hsmall le_rfl hdigits _).mono fun r hr => ?_)
    · dsimp only
      rw [hlast, Option.bind_eq_bind, Option.bind_some, hshown]
      rfl
    · obtain ⟨digits, htext, hmap, hreads⟩ := hr
      rw [List.take_length] at hmap
      exact ⟨digits, htext, hmap, hreads _ List.mem_cons_self⟩
  · obtain ⟨digits, htext, hmap, hreads⟩ := hr
    exact .of_eq (fun _ => rfl) ⟨rfl, ⟨x, front, digits, hload, hshown, htext, hmap⟩, hreads⟩

/-- Whenever the program ends, it has printed that. -/
lemma numeralBehind_of_returns (hp : 2 ≤ p) (hp' : p ≤ 36)
    (hfit : (Nat.digits p n).length ≤ s.length)
    (hret : Returns (fun fuel => main s fuel n p) (m, out)) : NumeralBehind s n p m out := by
  obtain ⟨r, ⟨N, hN⟩, hr⟩ := divideLoop_ends (s := s) hp hp' hfit
  subst hr
  obtain ⟨N', hN'⟩ := id hret
  have hdiv : divideLoop p (max N N') (n, 0, s) = some _ := hN _ (le_max_left _ _)
  have hmain : main s (max N N') n p = some _ := hN' _ (le_max_right _ _)
  rw [main, hdiv, Option.bind_eq_bind, Option.bind_some] at hmain
  obtain ⟨r, hprint, -⟩ := Option.bind_eq_some_iff.mp hmain
  obtain ⟨x, front, hload, hshown⟩ := exists_shown (by omega) hprint
  rw [Cells.load_fill_of_le le_rfl (by rw [List.length_map])] at hload
  exact (main_ends hp hp' hfit hload hshown).of_returns hret

/-- **The number is never what is printed**: a cell that the division has not written is read and
printed in front of it. -/
theorem not_printsNumber (hp : 2 ≤ p) (hp' : p ≤ 36) (hfit : (Nat.digits p n).length ≤ s.length) :
    ¬ PrintsNumber s n p := by
  rintro ⟨m, out, hret, hnumeral, hreads⟩
  have h := numeralBehind_of_returns hp hp' hfit hret
  obtain ⟨x, front, digits, -, hshown, htext, hdigits⟩ := h.text
  rw [htext] at hnumeral
  exact not_isNumeral hp (shown_ne_nil hshown) hdigits (Nat.ofDigits_digits p n) hnumeral

/-- Five in base two. -/
theorem not_printsNumber_five : ¬ PrintsNumber (List.replicate 100 0) 5 2 :=
  not_printsNumber le_rfl (by decide) (by norm_num)

/-- **With zeros in the array, five comes out as `0101`** in base two, and the first of the digits
is read from the cell that the division has left alone. -/
theorem prints_zero_in_front :
    Returns (fun fuel => main (List.replicate 100 0) fuel (5 : ℕ) (2 : ℕ))
        (3, ⟨['0', '1', '0', '1'], [3, 2, 1, 0]⟩)
      ∧ ¬ PrintsNumber (List.replicate 100 0) 5 2 := by
  have hrun : Returns (fun fuel => main (List.replicate 100 0) fuel (5 : ℕ) (2 : ℕ))
      (3, ⟨['0', '1', '0', '1'], [3, 2, 1, 0]⟩) := .of_add 5 fun _ => rfl
  refine ⟨hrun, ?_⟩
  rintro ⟨m, out, hret, -, hreads⟩
  obtain ⟨rfl, rfl⟩ := Prod.mk.inj (hret.unique hrun)
  exact absurd (hreads 3 List.mem_cons_self).2 (lt_irrefl 3)

end Wgs.BaseConversion
