import Mathlib.Tactic
import Mathlib.Order.Bounds.Basic

/-!
Bitmaps.

A table of words marks a set of natural numbers: the number `i * w + j` is marked by the bit `j` of
the word `i`, counted from its most significant bit (`Marks`).  A number is marked and unmarked by
one word (`Marks.mark`, `Marks.unmark`), and the least number of the set is found by the leading
zeros of the first word that is not zero (`Marks.isLeast_of_first`).
-/

namespace Foundation

variable {w : ℕ}

/-! ### One word -/

/-- The word with the bit `j`, counted from the most significant one. -/
def msbMask (w j : ℕ) : BitVec w := 1#w <<< (w - 1 - j)

lemma getMsbD_msbMask {j k : ℕ} (hj : j < w) (hk : k < w) :
    (msbMask w j).getMsbD k = decide (k = j) := by
  rw [msbMask, BitVec.getMsbD_shiftLeft, BitVec.getMsbD_one]
  have hw : 0 < w := by omega
  have hiff : k + (w - 1 - j) = w - 1 ↔ k = j := by omega
  simp [hw, hiff]

/-- A word that is not zero has a bit behind its leading zeros. -/
lemma getMsbD_clz {x : BitVec w} (hx : x ≠ 0) : x.getMsbD x.clz.toNat = true := by
  have hw : 0 < w := by
    by_contra hnot
    obtain rfl : w = 0 := by omega
    exact hx (Subsingleton.elim x 0)
  have hlt : x.clz.toNat < w := by
    have h := BitVec.lt_def.mp (BitVec.clz_lt_iff_ne_zero.mpr hx)
    exact lt_of_lt_of_le h (Nat.mod_le _ _)
  rw [BitVec.getMsbD_eq_getLsbD, BitVec.getLsbD_true_clz_of_ne_zero hw hx]
  simp [hlt]

lemma clz_lt {x : BitVec w} (hx : x ≠ 0) : x.clz.toNat < w := by
  have h := getMsbD_clz hx
  rw [BitVec.getMsbD_eq_getLsbD, Bool.and_eq_true, decide_eq_true_eq] at h
  exact h.1

/-- The bits in front of that one are not set. -/
lemma getMsbD_of_lt_clz {x : BitVec w} {k : ℕ} (hk : k < x.clz.toNat) : x.getMsbD k = false := by
  rw [BitVec.getMsbD_eq_getLsbD]
  by_cases hkw : k < w
  · have hsmall : x.toNat < 2 ^ (w - 1 - k) :=
      lt_of_lt_of_le BitVec.toNat_lt_two_pow_sub_clz (Nat.pow_le_pow_right (by omega) (by omega))
    simp [BitVec.getLsbD, Nat.testBit_lt_two_pow hsmall]
  · simp [hkw]

/-! ### Tables -/

/-- The table marks the numbers of `S`, all of them below the number of its bits. -/
structure Marks (tbl : List (BitVec w)) (S : Set ℕ) : Prop where
  bit : ∀ i x, tbl[i]? = some x → ∀ j < w, x.getMsbD j = true ↔ i * w + j ∈ S
  lt : ∀ p ∈ S, p < tbl.length * w

namespace Marks

variable {tbl : List (BitVec w)} {S : Set ℕ} {p i j : ℕ} {x : BitVec w}

/-- A table of zeros marks nothing. -/
lemma empty (n : ℕ) : Marks (List.replicate n (0#w)) ∅ where
  bit := by
    intro i x hx j _
    rw [List.getElem?_replicate] at hx
    split_ifs at hx
    obtain rfl := Option.some_inj.mp hx
    simp
  lt := by simp

/-- The word of a number. -/
lemma exists_word (hp : p < tbl.length * w) : ∃ x, tbl[p / w]? = some x := by
  have hlt : p / w < tbl.length := Nat.div_lt_of_lt_mul (by rwa [Nat.mul_comm])
  exact ⟨_, List.getElem?_eq_getElem hlt⟩

/-- A bit of the word of a number is its own bit. -/
private lemma word_add_eq_iff {k : ℕ} : p / w * w + k = p ↔ k = p % w := by
  have h := Nat.div_add_mod' p w
  omega

/-- A word is replaced: the numbers of the word are marked by it, the others as before. -/
private lemma set_word {T : Set ℕ} {y : BitVec w} (h : Marks tbl S) (hp : p < tbl.length * w)
    (hin : ∀ k < w, y.getMsbD k = true ↔ p / w * w + k ∈ T)
    (hout : ∀ q, q / w ≠ p / w → (q ∈ T ↔ q ∈ S)) (hlt : ∀ q ∈ T, q ∈ S ∨ q = p) :
    Marks (tbl.set (p / w) y) T where
  bit := by
    intro i x hx k hk
    rw [List.getElem?_set] at hx
    split_ifs at hx with heq hlen
    · obtain rfl := Option.some_inj.mp hx
      subst heq
      exact hin k hk
    · have hdiv : (i * w + k) / w = i := by
        rw [Nat.mul_comm, Nat.mul_add_div (by omega), Nat.div_eq_of_lt hk, Nat.add_zero]
      rw [hout _ (by rw [hdiv]; exact fun h => heq h.symm)]
      exact h.bit i x hx k hk
  lt := by
    intro q hq
    rw [List.length_set]
    rcases hlt q hq with hS | rfl
    · exact h.lt q hS
    · exact hp

/-- **A number is marked.** -/
lemma mark (h : Marks tbl S) (hp : p < tbl.length * w) (hx : tbl[p / w]? = some x) :
    Marks (tbl.set (p / w) (x ||| msbMask w (p % w))) (insert p S) := by
  have hmod : p % w < w := Nat.mod_lt p (Nat.pos_of_mul_pos_left (Nat.zero_lt_of_lt hp))
  refine h.set_word hp (fun k hk => ?_) (fun q hq => ?_) (fun q hq => ?_)
  · rw [BitVec.getMsbD_or, Bool.or_eq_true, h.bit _ x hx k hk, getMsbD_msbMask hmod hk,
      decide_eq_true_eq, Set.mem_insert_iff, word_add_eq_iff, or_comm]
  · have hne : q ≠ p := fun heq => hq (heq ▸ rfl)
    simp [hne]
  · exact (Set.mem_insert_iff.mp hq).symm

/-- **A number is unmarked.** -/
lemma unmark (h : Marks tbl S) (hp : p < tbl.length * w) (hx : tbl[p / w]? = some x) :
    Marks (tbl.set (p / w) (x &&& ~~~msbMask w (p % w))) (S \ {p}) := by
  have hmod : p % w < w := Nat.mod_lt p (Nat.pos_of_mul_pos_left (Nat.zero_lt_of_lt hp))
  refine h.set_word hp (fun k hk => ?_) (fun q hq => ?_) (fun q hq => ?_)
  · have hnot : (~~~msbMask w (p % w)).getMsbD k = true ↔ p / w * w + k ≠ p := by
      rw [BitVec.getMsbD_not, getMsbD_msbMask hmod hk, Ne, word_add_eq_iff]
      simp [hk]
    rw [BitVec.getMsbD_and, Bool.and_eq_true, h.bit _ x hx k hk, hnot]
    rfl
  · have hne : q ≠ p := fun heq => hq (heq ▸ rfl)
    simp [hne]
  · exact Or.inl hq.1

/-- **The least marked number** is behind the leading zeros of the first word that is not zero. -/
lemma isLeast_of_first (h : Marks tbl S) (hx : tbl[i]? = some x) (hne : x ≠ 0)
    (hzero : ∀ k < i, ∀ y, tbl[k]? = some y → y = 0) : IsLeast S (i * w + x.clz.toNat) := by
  have hclz := clz_lt hne
  have hw : 0 < w := by omega
  refine ⟨(h.bit i x hx _ hclz).mp (getMsbD_clz hne), fun q hq => ?_⟩
  by_contra hlt
  obtain ⟨y, hy⟩ := exists_word (h.lt q hq)
  have hbit : y.getMsbD (q % w) = true := by
    rw [h.bit _ y hy _ (Nat.mod_lt q hw), Nat.div_add_mod']
    exact hq
  have hle : q / w ≤ i := by
    rw [← Nat.lt_succ_iff]
    exact Nat.div_lt_of_lt_mul (by rw [Nat.mul_succ, Nat.mul_comm]; omega)
  rcases hle.lt_or_eq with hword | hword
  · rw [hzero _ hword y hy] at hbit
    simp at hbit
  · rw [hword, hx, Option.some_inj] at hy
    subst hy
    have hmod := Nat.div_add_mod' q w
    rw [hword] at hmod
    rw [getMsbD_of_lt_clz (by omega)] at hbit
    cases hbit

/-- Without a word that is not zero, nothing is marked. -/
lemma eq_empty (h : Marks tbl S) (hzero : ∀ y ∈ tbl, y = 0) : S = ∅ := by
  refine Set.eq_empty_of_forall_notMem fun q hq => ?_
  have hw : 0 < w := Nat.pos_of_mul_pos_left (Nat.zero_lt_of_lt (h.lt q hq))
  obtain ⟨y, hy⟩ := exists_word (h.lt q hq)
  have hbit := (h.bit _ y hy _ (Nat.mod_lt q hw)).mpr (by rwa [Nat.div_add_mod'])
  rw [hzero y (List.mem_of_getElem? hy)] at hbit
  simp at hbit

end Marks

end Foundation
