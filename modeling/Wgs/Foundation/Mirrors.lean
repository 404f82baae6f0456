import Mathlib.Data.List.Palindrome
import Wgs.Foundation.Cells

/-!
Palindromes in an array.

A segment of an array is a palindrome when the cells at the same distance from its ends hold the
same (`Mirrored`).  Such a range has a centre, the sum of its ends; about one centre the ranges are
nested, and one that cannot be extended is the longest (`Mirrored.sub_le`).
-/

namespace Foundation

variable {α : Type} {f : ℤ → α} {a b c d i j l r : ℤ}

/-- Places at the same distance from the ends hold the same. -/
def Mirrored (f : ℤ → α) (a b : ℤ) : Prop := ∀ i j, a ≤ i → i ≤ j → i + j = a + b → f i = f j

namespace Mirrored

lemma of_le (h : b ≤ a) : Mirrored f a b := by
  intro i j hi hij hsum
  obtain rfl : i = j := by omega
  rfl

/-- A range grows by a pair of the same values. -/
lemma extend (h : Mirrored f (a + 1) (b - 1)) (heq : f a = f b) : Mirrored f a b := by
  intro i j hi hij hsum
  rcases hi.eq_or_lt with rfl | hlt
  · rw [heq]
    congr 1
    omega
  · exact h i j (by omega) hij (by omega)

/-- **The longest range about a centre** is one that cannot be extended. -/
lemma sub_le {n : ℤ} (h : Mirrored f a b) (ha : 0 ≤ a) (hb : b < n) (hlr : l ≤ r)
    (hcentre : l + r = a + b) (hend : ¬ (0 ≤ l ∧ r < n ∧ f l = f r)) : b - a ≤ r - l - 2 := by
  by_contra hlonger
  exact hend ⟨by omega, by omega, h l r (by omega) hlr hcentre⟩

end Mirrored

variable {s : Cells α}

lemma segment_isInfix (s : Cells α) (a b : ℤ) : s.segment a b <:+: s :=
  ((List.take_prefix _ _).isInfix).trans (List.drop_suffix _ _).isInfix

/-- A part of an array is a segment of it. -/
lemma exists_segment_of_isInfix {q : List α} (h : q <:+: s) :
    ∃ a : ℤ, 0 ≤ a ∧ a + q.length - 1 < s.length ∧ q = s.segment a (a + q.length - 1) := by
  obtain ⟨u, v, rfl⟩ := h
  refine ⟨u.length, by omega, ?_, ?_⟩
  · simp only [List.length_append]
    push_cast
    omega
  · have hlen : ((u.length : ℤ) + q.length - 1 + 1 - u.length).toNat = q.length := by omega
    rw [Cells.segment, hlen, Int.toNat_natCast, List.append_assoc, List.drop_left, List.take_left]

variable [Inhabited α]

lemma getElem?_segment (ha : 0 ≤ a) (hb : b < s.length) {k : ℕ} (hk : a + k ≤ b) :
    (s.segment a b)[k]? = some (s.cell (a + k)) := by
  rw [Cells.segment_eq ha hb, List.getElem?_map, List.getElem?_range (by omega), Option.map_some]

/-- Palindromes, in terms of the places. -/
lemma palindrome_segment_iff (ha : 0 ≤ a) (hb : b < s.length) :
    (s.segment a b).Palindrome ↔ Mirrored s.cell a b := by
  have hlen := Cells.length_segment ha hb
  rw [List.Palindrome.iff_reverse_eq]
  constructor
  · intro hrev i j hi hij hsum
    have hget := congrArg (fun q => q[(j - a).toNat]?) hrev
    rw [List.getElem?_reverse (by omega), getElem?_segment ha hb (by omega),
      getElem?_segment ha hb (by omega), Option.some_inj] at hget
    rw [show i = a + (((s.segment a b).length - 1 - (j - a).toNat : ℕ) : ℤ) by omega, hget]
    congr 1
    omega
  · intro hmirror
    refine List.ext_getElem? fun k => ?_
    by_cases hk : k < (s.segment a b).length
    · rw [List.getElem?_reverse hk, getElem?_segment ha hb (by omega),
        getElem?_segment ha hb (by omega), Option.some_inj]
      rcases le_total (a + ((s.segment a b).length - 1 - k : ℕ)) (a + k) with hle | hle
      · exact hmirror _ _ (by omega) hle (by omega)
      · exact (hmirror _ _ (by omega) hle (by omega)).symm
    · rw [List.getElem?_eq_none (by rw [List.length_reverse]; omega),
        List.getElem?_eq_none (by omega)]

end Foundation
