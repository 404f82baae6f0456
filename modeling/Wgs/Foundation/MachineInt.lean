import Mathlib.Tactic

/-!
Fixed-width integers of C, read as integers.

`int` and `long long` are two's complement of 32 and 64 bits, `unsigned int` and
`unsigned long` count modulo `2³²` and `2⁶⁴`.  A conversion to such a type is the function of
the same name; arithmetic is carried out in `ℤ` and converted.  All four are written with `%`
by a numeral, so that `omega` computes with them.
-/

namespace Foundation

/-- Conversion to a signed integer of 32 bits. -/
def toInt32 (x : ℤ) : ℤ := (x + 2147483648) % 4294967296 - 2147483648

/-- Conversion to an unsigned integer of 32 bits. -/
def toUInt32 (x : ℤ) : ℤ := x % 4294967296

/-- Conversion to a signed integer of 64 bits. -/
def toInt64 (x : ℤ) : ℤ := (x + 9223372036854775808) % 18446744073709551616 - 9223372036854775808

/-- Conversion to an unsigned integer of 64 bits. -/
def toUInt64 (x : ℤ) : ℤ := x % 18446744073709551616

/-- The values of a signed integer of 32 bits. -/
def IsInt32 (x : ℤ) : Prop := -2147483648 ≤ x ∧ x ≤ 2147483647

instance (x : ℤ) : Decidable (IsInt32 x) := inferInstanceAs (Decidable (_ ∧ _))

/-- A result of signed arithmetic, where signed overflow is left undefined. -/
def definedInt32 (x : ℤ) : Option ℤ := if IsInt32 x then some x else none

/-- The values of an unsigned integer of 32 bits. -/
def IsUInt32 (x : ℤ) : Prop := 0 ≤ x ∧ x < 4294967296

/-- The values of a signed integer of 64 bits. -/
def IsInt64 (x : ℤ) : Prop := -9223372036854775808 ≤ x ∧ x ≤ 9223372036854775807

/-- The values of an unsigned integer of 64 bits. -/
def IsUInt64 (x : ℤ) : Prop := 0 ≤ x ∧ x < 18446744073709551616

lemma toInt32_of_isInt32 {x : ℤ} (h : IsInt32 x) : toInt32 x = x := by
  rw [IsInt32] at h
  rw [toInt32]
  omega

lemma isInt32_toInt32 (x : ℤ) : IsInt32 (toInt32 x) := by
  simp only [IsInt32, toInt32]
  omega

/-- A product may be reduced after each factor. -/
lemma toInt32_toInt32_mul (x y : ℤ) : toInt32 (toInt32 x * y) = toInt32 (x * y) := by
  obtain ⟨q, hq⟩ : ∃ q, toInt32 x = x + 4294967296 * q := by
    refine ⟨-((x + 2147483648) / 4294967296), ?_⟩
    rw [toInt32]
    omega
  have hmul : toInt32 x * y + 2147483648 = x * y + 2147483648 + 4294967296 * (q * y) := by
    rw [hq]
    ring
  calc toInt32 (toInt32 x * y)
      = (toInt32 x * y + 2147483648) % 4294967296 - 2147483648 := rfl
    _ = (x * y + 2147483648) % 4294967296 - 2147483648 := by
        rw [hmul, Int.add_mul_emod_self_left]
    _ = toInt32 (x * y) := rfl

lemma definedInt32_eq {x : ℤ} (h : IsInt32 x) : definedInt32 x = some x := if_pos h

lemma definedInt32_eq_none {x : ℤ} (h : ¬ IsInt32 x) : definedInt32 x = none := if_neg h

/-- A result of signed arithmetic is exact. -/
lemma eq_of_definedInt32 {x y : ℤ} (h : definedInt32 x = some y) : x = y := by
  rw [definedInt32] at h
  split_ifs at h
  exact Option.some_inj.mp h

lemma toInt64_of_isInt64 {x : ℤ} (h : IsInt64 x) : toInt64 x = x := by
  rw [IsInt64] at h
  rw [toInt64]
  omega

lemma toUInt32_of_isUInt32 {x : ℤ} (h : IsUInt32 x) : toUInt32 x = x := by
  rw [IsUInt32] at h
  rw [toUInt32]
  omega

lemma isUInt32_toUInt32 (x : ℤ) : IsUInt32 (toUInt32 x) := by
  simp only [IsUInt32, toUInt32]
  omega

lemma toUInt64_of_isUInt64 {x : ℤ} (h : IsUInt64 x) : toUInt64 x = x := by
  rw [IsUInt64] at h
  rw [toUInt64]
  omega

/-- A signed integer that is not negative is the same as an unsigned one. -/
lemma toUInt64_of_nonneg {x : ℤ} (hx : 0 ≤ x) (h : IsInt64 x) : toUInt64 x = x := by
  rw [IsInt64] at h
  exact toUInt64_of_isUInt64 ⟨hx, by omega⟩

end Foundation
