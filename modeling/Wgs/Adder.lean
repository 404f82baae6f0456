import Mathlib.Data.Nat.Bitwise
import Mathlib.Tactic

/-!
`gytraining/src/recursive/adder.c`: addition by half adders.

A half adder leaves the sum without the carries, and the carries.  `add` calls itself with the two,
the carries one place up, until there is none.  Their sum modulo `2^w` stays what it was
(`xor_add_carry`), and after `k` calls no carry is below the place `k`, so that there is none after
as many calls as the words have bits.
-/

namespace Wgs.Adder

variable {w : ℕ}

/-! ### The program -/

/-- `add`, with a bound on the calls of it, the first one included. -/
def add : ℕ → BitVec w → BitVec w → Option (BitVec w)
  | 0, _, _ => none
  | calls + 1, a, b =>
      if b = 0#w then some a
      else
        let sum := a ^^^ b
        let carry := (a &&& b) <<< 1
        add calls sum carry

/-! ### The sum and the carries -/

/-- A half adder in every place: the sum without the carries, and the carries one place up. -/
lemma xor_add_two_mul_and (a b : ℕ) : (a ^^^ b) + 2 * (a &&& b) = a + b := by
  induction a using Nat.strong_induction_on generalizing b with
  | _ a ih =>
      rcases a.eq_zero_or_pos with rfl | ha
      · simp
      · have hhalf := ih (a / 2) (Nat.div_lt_self ha one_lt_two) (b / 2)
        rw [← Nat.xor_div_two, ← Nat.and_div_two] at hhalf
        have hsum : (a ^^^ b) % 2 = (a + b) % 2 := Nat.xor_mod_two_eq
        have hcarry : (a &&& b) % 2 = a % 2 &&& b % 2 := by
          simpa using Nat.and_mod_two_pow (a := a) (b := b) (n := 1)
        rcases Nat.mod_two_eq_zero_or_one a with hzero | hone
        · rw [hzero, Nat.zero_and] at hcarry
          omega
        · rcases Nat.mod_two_eq_zero_or_one b with hzero' | hone'
          · rw [hzero', Nat.and_zero] at hcarry
            omega
          · rw [hone, hone', Nat.and_self] at hcarry
            omega

/-- **What every call keeps**: the sum of its two words. -/
lemma xor_add_carry (a b : BitVec w) : (a ^^^ b) + (a &&& b) <<< 1 = a + b := by
  refine BitVec.eq_of_toNat_eq ?_
  rw [BitVec.toNat_add, BitVec.toNat_add, BitVec.toNat_shiftLeft, BitVec.toNat_xor,
    BitVec.toNat_and, Nat.shiftLeft_eq, pow_one, Nat.add_mod_mod, mul_comm, xor_add_two_mul_and]

/-- The places below `k` are empty. -/
def ClearBelow (k : ℕ) (b : BitVec w) : Prop := ∀ i < k, b.getLsbD i = false

lemma ClearBelow.eq_zero {b : BitVec w} (h : ClearBelow w b) : b = 0#w :=
  BitVec.eq_of_getLsbD_eq fun i hi => by rw [h i hi, BitVec.getLsbD_zero]

/-- The carries are one place higher than those that they come from. -/
lemma ClearBelow.carry {k : ℕ} {b : BitVec w} (h : ClearBelow k b) (a : BitVec w) :
    ClearBelow (k + 1) ((a &&& b) <<< 1) := by
  intro i hi
  cases i with
  | zero => simp
  | succ i =>
      have hclear := h i (Nat.lt_of_succ_lt_succ hi)
      simp [BitVec.getLsbD_shiftLeft, hclear]

/-- `w - k` calls are enough for carries that are not below the place `k`, and one more to
return. -/
lemma add_eq {k calls : ℕ} {a b : BitVec w} (h : ClearBelow k b) (hk : k ≤ w)
    (hcalls : w + 1 ≤ k + calls) : add calls a b = some (a + b) := by
  induction calls generalizing k a b with
  | zero => omega
  | succ calls ih =>
      rw [add]
      by_cases hb : b = 0#w
      · rw [if_pos hb, hb, BitVec.add_zero]
      · have hlt : k < w := by
          refine lt_of_le_of_ne hk ?_
          rintro rfl
          exact hb h.eq_zero
        rw [if_neg hb, ih (h.carry a) hlt (by omega), xor_add_carry]

/-- **The recursive adder**: for words of any width, `add` calls itself `w` times at most, and
returns the sum modulo `2^w`. -/
theorem add_adds (a b : BitVec w) (k : ℕ) :
    add (w + 1 + k) a b = some (a + b) ∧ (a + b).toNat = (a.toNat + b.toNat) % 2 ^ w := by
  have hclear : ClearBelow 0 b := fun i hi => absurd hi i.not_lt_zero
  exact ⟨add_eq hclear w.zero_le (by omega), BitVec.toNat_add a b⟩

end Wgs.Adder
