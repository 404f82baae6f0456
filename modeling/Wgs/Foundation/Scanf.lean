import Wgs.Foundation.MachineInt
import Wgs.Foundation.Strings

/-!
The conversion `%d` of `scanf`.

The conversion leaves out white space, and takes a sign and the digits behind it.  Where the input
ends before that, it fails for want of input; where there is no number, it fails to match, and the
input goes on with the character that does not fit.  The number must be an `int`.
-/

namespace Foundation

open Strings

/-- How a conversion ends, with the rest of the input. -/
inductive Scanned where
  | eof
  | mismatch (rest : List UInt8)
  | ok (x : ℤ) (rest : List UInt8)

def isDigit (c : UInt8) : Bool := 48 ≤ c ∧ c ≤ 57

/-- The number with these decimal digits. -/
def digitsValue (ds : List UInt8) : ℤ := ds.foldl (fun v d => 10 * v + (d.toNat - 48)) 0

/-- The digits of a number, behind its sign. -/
def scanDigits (sign : ℤ) (cs : List UInt8) : Option Scanned :=
  match cs.takeWhile isDigit with
  | [] => some (.mismatch cs)
  | d :: ds => do
      let x ← definedInt32 (sign * digitsValue (d :: ds))
      return .ok x (cs.dropWhile isDigit)

/-- `%d` -/
def scanInt (stdin : List UInt8) : Option Scanned :=
  match stdin.dropWhile isSpace with
  | [] => some .eof
  | c :: cs =>
      if c = 45 then scanDigits (-1) cs
      else if c = 43 then scanDigits 1 cs
      else scanDigits 1 (c :: cs)

/-- What may be written for a number. -/
inductive IsNumeral : List UInt8 → ℤ → Prop
  | unsigned {ds : List UInt8} (hne : ds ≠ []) (hds : ∀ d ∈ ds, isDigit d) :
      IsNumeral ds (digitsValue ds)
  | plus {ds : List UInt8} (hne : ds ≠ []) (hds : ∀ d ∈ ds, isDigit d) :
      IsNumeral (43 :: ds) (digitsValue ds)
  | minus {ds : List UInt8} (hne : ds ≠ []) (hds : ∀ d ∈ ds, isDigit d) :
      IsNumeral (45 :: ds) (-digitsValue ds)

/-- The text does not begin with a digit. -/
def NoDigit (rest : List UInt8) : Prop := ∀ c, rest.head? = some c → isDigit c = false

variable {cs ds ws rest : List UInt8} {c : UInt8} {x : ℤ}

lemma isSpace_of_isDigit (h : isDigit c) : isSpace c = false := by
  simp only [isDigit, decide_eq_true_eq, UInt8.le_iff_toNat_le, UInt8.reduceToNat] at h
  simp only [isSpace, ← UInt8.toNat_inj, UInt8.le_iff_toNat_le, UInt8.reduceToNat,
    decide_eq_false_iff_not]
  omega

/-- All white space in front is left out. -/
lemma dropWhile_spaces (hws : ∀ c ∈ ws, isSpace c) (hc : isSpace c = false) :
    (ws ++ c :: rest).dropWhile isSpace = c :: rest := by
  rw [List.dropWhile_append_of_pos hws, List.dropWhile_cons_of_neg (by simp [hc])]

lemma scanDigits_eq (sign : ℤ) (hne : ds ≠ []) (hds : ∀ d ∈ ds, isDigit d) (hrest : NoDigit rest)
    (hx : IsInt32 (sign * digitsValue ds)) :
    scanDigits sign (ds ++ rest) = some (.ok (sign * digitsValue ds) rest) := by
  have hstop : rest.takeWhile isDigit = [] ∧ rest.dropWhile isDigit = rest := by
    cases rest with
    | nil => exact ⟨rfl, rfl⟩
    | cons c rest =>
        have hc := hrest c rfl
        exact ⟨List.takeWhile_cons_of_neg (by simp [hc]), List.dropWhile_cons_of_neg (by simp [hc])⟩
  have htake : (ds ++ rest).takeWhile isDigit = ds := by
    rw [List.takeWhile_append_of_pos hds, hstop.1, List.append_nil]
  have hdrop : (ds ++ rest).dropWhile isDigit = rest := by
    rw [List.dropWhile_append_of_pos hds, hstop.2]
  cases ds with
  | nil => exact absurd rfl hne
  | cons d ds =>
      rw [scanDigits, htake, hdrop]
      dsimp only
      rw [definedInt32_eq hx]
      rfl

/-- **A number is scanned.** -/
lemma scanInt_numeral (hws : ∀ c ∈ ws, isSpace c) (hcs : IsNumeral cs x) (hx : IsInt32 x)
    (hrest : NoDigit rest) : scanInt (ws ++ (cs ++ rest)) = some (.ok x rest) := by
  cases hcs with
  | unsigned hne hds =>
      obtain ⟨d, ds, rfl⟩ := List.exists_cons_of_ne_nil hne
      have hd := hds d List.mem_cons_self
      have hspace : isSpace d = false := isSpace_of_isDigit hd
      have hsign : d ≠ 45 ∧ d ≠ 43 := by
        constructor <;> (rintro rfl; revert hd; decide)
      have hscan := scanDigits_eq 1 hne hds hrest (by rwa [one_mul])
      rw [one_mul] at hscan
      rw [List.cons_append, scanInt, dropWhile_spaces hws hspace]
      dsimp only
      rw [if_neg hsign.1, if_neg hsign.2]
      exact hscan
  | plus hne hds =>
      have hscan := scanDigits_eq 1 hne hds hrest (by rwa [one_mul])
      rw [one_mul] at hscan
      rw [List.cons_append, scanInt, dropWhile_spaces hws (by decide)]
      exact hscan
  | minus hne hds =>
      have hscan := scanDigits_eq (-1) hne hds hrest (by rwa [neg_one_mul])
      rw [neg_one_mul] at hscan
      rw [List.cons_append, scanInt, dropWhile_spaces hws (by decide)]
      exact hscan

/-- **Something else than a number** is left, without the white space in front of it. -/
lemma scanInt_mismatch (hws : ∀ c ∈ ws, isSpace c) (hspace : isSpace c = false)
    (hdigit : isDigit c = false) (hminus : c ≠ 45) (hplus : c ≠ 43) :
    scanInt (ws ++ c :: rest) = some (.mismatch (c :: rest)) := by
  rw [scanInt, dropWhile_spaces hws hspace]
  dsimp only
  rw [if_neg hminus, if_neg hplus, scanDigits, List.takeWhile_cons_of_neg (by simp [hdigit])]

lemma scanInt_spaces (hws : ∀ c ∈ ws, isSpace c) : scanInt ws = some .eof := by
  have hdrop : (ws ++ []).dropWhile isSpace = [].dropWhile isSpace :=
    List.dropWhile_append_of_pos hws
  rw [List.append_nil, List.dropWhile_nil] at hdrop
  rw [scanInt, hdrop]

end Foundation
