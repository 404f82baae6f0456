import Wgs.Foundation.Regroup

/-!
Strings of bits, the highest bit first.

`bitsOf w v` are the `w` bits of a number and `ofBits` is the number of a string.  A string that is
cut into groups of `w` bits is a number in base `2^w`, and the groups are its digits
(`digit_ofBits`).
-/

namespace Foundation

/-- The `w` bits of a number. -/
def bitsOf (w v : ℕ) : List Bool := (List.range w).map fun i => v.testBit (w - 1 - i)

/-- The number of a string of bits. -/
def ofBits (l : List Bool) : ℕ := l.foldl (fun v b => 2 * v + b.toNat) 0

variable {l l' : List Bool} {w n k v i : ℕ} {ds : List ℕ}

@[simp] lemma length_bitsOf : (bitsOf w v).length = w := by
  simp [bitsOf]

lemma length_flatMap_bitsOf : (ds.flatMap (bitsOf w)).length = w * ds.length := by
  induction ds with
  | nil => rfl
  | cons d ds ih =>
      rw [List.flatMap_cons, List.length_append, length_bitsOf, ih, List.length_cons]
      ring

@[simp] lemma ofBits_nil : ofBits [] = 0 := rfl

lemma foldl_bits (v : ℕ) (l : List Bool) :
    l.foldl (fun v b => 2 * v + b.toNat) v = v * 2 ^ l.length + ofBits l := by
  induction l generalizing v with
  | nil => simp
  | cons b l ih =>
      rw [ofBits, List.foldl_cons, List.foldl_cons, ih, ih (2 * 0 + b.toNat), List.length_cons]
      ring

lemma ofBits_append : ofBits (l ++ l') = ofBits l * 2 ^ l'.length + ofBits l' := by
  rw [ofBits, List.foldl_append, foldl_bits]
  rfl

lemma ofBits_lt : ofBits l < 2 ^ l.length := by
  induction l using List.reverseRecOn with
  | nil => simp
  | append_singleton l b ih =>
      have hb : ofBits [b] ≤ 1 := by cases b <;> decide
      rw [ofBits_append, List.length_append, List.length_singleton, pow_one, pow_succ]
      omega

@[simp] lemma ofBits_replicate_false : ofBits (List.replicate k false) = 0 := by
  induction k with
  | zero => rfl
  | succ k ih => rw [List.replicate_succ', ofBits_append, ih, zero_mul, zero_add]; rfl

/-- The bits of a number are those of its half and the last one. -/
lemma bitsOf_succ : bitsOf (w + 1) v = bitsOf w (v / 2) ++ [v.testBit 0] := by
  rw [bitsOf, List.range_succ, List.map_append, bitsOf]
  congr 1
  · refine List.map_congr_left fun i hi => ?_
    have hi' : i < w := List.mem_range.mp hi
    rw [show w + 1 - 1 - i = w - 1 - i + 1 by omega, Nat.testBit_succ]
  · simp

lemma ofBits_bitsOf (hv : v < 2 ^ w) : ofBits (bitsOf w v) = v := by
  induction w generalizing v with
  | zero =>
      obtain rfl : v = 0 := by simpa using hv
      rfl
  | succ w ih =>
      have hhalf : v / 2 < 2 ^ w := by
        rw [pow_succ] at hv
        omega
      have hbit : ofBits [v.testBit 0] = v % 2 := by
        rw [Nat.testBit_zero]
        rcases Nat.mod_two_eq_zero_or_one v with h | h <;> simp [h, ofBits]
      rw [bitsOf_succ, ofBits_append, ih hhalf, hbit, List.length_singleton, pow_one]
      omega

/-- The bits of `n` digits, of which the last ones are zero. -/
lemma ofBits_flatMap (hds : ∀ d ∈ ds, d < 2 ^ w) (hlen : ds.length ≤ n) :
    ofBits (ds.flatMap (bitsOf w) ++ List.replicate (w * (n - ds.length)) false)
      = leading (2 ^ w) n ds := by
  induction ds generalizing n with
  | nil => simp
  | cons d ds ih =>
      obtain ⟨n, rfl⟩ := Nat.exists_eq_add_of_le' (show 1 ≤ n by simp at hlen; omega)
      have hlen' : ds.length ≤ n := by simpa using hlen
      have hrest : w * ds.length + w * (n - ds.length) = w * n := by
        rw [← mul_add, Nat.add_sub_cancel' hlen']
      rw [List.flatMap_cons, List.append_assoc, ofBits_append, ofBits_bitsOf (hds d (by simp)),
        List.length_cons, Nat.add_sub_add_right, ih (fun e he => hds e (by simp [he])) hlen',
        List.length_append, length_flatMap_bitsOf, List.length_replicate, hrest, pow_mul,
        leading_cons]

/-- **The groups of `w` bits are the digits in base `2^w`.** -/
lemma digit_ofBits (hl : l.length = w * n) (hi : i < n) :
    ofBits ((l.drop (w * i)).take w) = digit (2 ^ w) n (ofBits l) i := by
  have hcut : w * n = w * i + w + w * (n - 1 - i) := by
    rw [show n = i + 1 + (n - 1 - i) by omega]
    simp only [mul_add, mul_one]
    rw [show i + 1 + (n - 1 - i) - 1 - i = n - 1 - i by omega]
  have hhead : (l.take (w * i)).length = w * i := by
    rw [List.length_take]
    omega
  have hgroup : ((l.drop (w * i)).take w).length = w := by
    rw [List.length_take, List.length_drop]
    omega
  have htail : (l.drop (w * i + w)).length = w * (n - 1 - i) := by
    rw [List.length_drop]
    omega
  have hsplit : l = l.take (w * i) ++ ((l.drop (w * i)).take w ++ l.drop (w * i + w)) := by
    rw [← List.drop_drop, List.take_append_drop, List.take_append_drop]
  have hlt : ofBits ((l.drop (w * i)).take w) < 2 ^ w := by
    conv_rhs => rw [← hgroup]
    exact ofBits_lt
  have hrest : ofBits (l.drop (w * i + w)) < (2 ^ w) ^ (n - 1 - i) := by
    rw [← pow_mul, ← htail]
    exact ofBits_lt
  have hvalue : ofBits l = ofBits (l.drop (w * i + w))
      + (ofBits ((l.drop (w * i)).take w) + ofBits (l.take (w * i)) * 2 ^ w)
        * (2 ^ w) ^ (n - 1 - i) := by
    conv_lhs => rw [hsplit]
    rw [ofBits_append, ofBits_append, List.length_append, hgroup, htail, pow_add, pow_mul]
    ring
  have hpos : 0 < (2 ^ w) ^ (n - 1 - i) := by positivity
  rw [digit, hvalue, Nat.add_mul_div_right _ _ hpos, Nat.div_eq_of_lt hrest, zero_add,
    Nat.add_mul_mod_self_right, Nat.mod_eq_of_lt hlt]

/-- A group that ends before what is appended. -/
lemma take_drop_append {α : Type*} {a b : List α} {j m : ℕ} (h : j + m ≤ a.length) :
    ((a ++ b).drop j).take m = (a.drop j).take m := by
  rw [List.drop_append_of_le_length (by omega), List.take_append_of_le_length]
  rw [List.length_drop]
  omega

end Foundation
