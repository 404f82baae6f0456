import Wgs.Base64.RoundTrip

/-!
The decoder stays within its allocation, whatever it is given.

The room is computed from the number of characters and the number of `'='` among the last three; the
bytes are written for the characters without those, group by group (`length_decodeGroups`).  The one
is never less than the other and the terminator: `base64Decode_in_bounds`.
-/

namespace Wgs

open Foundation

variable {g l data : List CChar}

/-- How many bytes are written for a group of characters: as many as it has characters, but no
more than three. -/
lemma length_decodeGroup (junk : CChar) (hlen : g.length ≤ 4) :
    (decodeGroup junk g).length = min 3 g.length := by
  rw [decodeGroup, List.length_map]
  generalize g.length = n at hlen
  interval_cases n <;> rfl

/-- How many bytes are written for a text. -/
lemma length_decodeGroups (junk : CChar) :
    (groupwise 4 (decodeGroup junk) l).length = 3 * (l.length / 4) + min 3 (l.length % 4) := by
  induction l using group_induction (show 0 < 4 by norm_num) with
  | nil => simp
  | short g hg hlt =>
      rw [groupwise_of_length_le hg hlt.le, length_decodeGroup junk hlt.le]
      omega
  | group g l hg ih =>
      rw [groupwise_append (by norm_num) hg, List.length_append, length_decodeGroup junk hg.le, ih,
        List.length_append, hg]
      omega

/-- Three characters at least have an `equal_count`. -/
lemma exists_equalCount {n : ℕ} (hpos : 3 ≤ n) (hlen : n ≤ data.length) :
    ∃ equals ≤ 3, equalCount data n = some equals := by
  have hread : ∀ j : ℕ, 1 ≤ j → j ≤ n → ∃ c, charAt data (n - j) = some c := by
    intro j hj hjn
    rw [charAt, if_neg (by omega), ← Nat.cast_sub hjn, Int.toNat_natCast]
    exact ⟨_, List.getElem?_eq_getElem (by omega)⟩
  obtain ⟨c₁, h₁⟩ := hread 1 (by omega) (by omega)
  obtain ⟨c₂, h₂⟩ := hread 2 (by omega) (by omega)
  obtain ⟨c₃, h₃⟩ := hread 3 (by omega) (by omega)
  push_cast at h₁ h₂ h₃
  refine ⟨[c₁, c₂, c₃].count (ascii '='), List.count_le_length, ?_⟩
  rw [equalCount, h₁, h₂, h₃]
  rfl

/-- The room is enough for the bytes and the terminator. -/
lemma decodeRetLen_enough {n equals : ℕ} (hequals : equals ≤ 3) (hn : 3 ≤ n) :
    ∃ size : ℕ, decodeRetLen n equals = size
      ∧ 3 * ((n - equals) / 4) + min 3 ((n - equals) % 4) < size := by
  have hdiv : ((n : ℤ).tdiv 4) = (n / 4 : ℕ) := Int.tdiv_eq_ediv_of_nonneg (by omega)
  interval_cases equals <;> simp only [decodeRetLen, hdiv]
  · exact ⟨n / 4 * 3 + 4, by push_cast; ring, by omega⟩
  · exact ⟨n / 4 * 3 + 4, by push_cast; ring, by omega⟩
  · exact ⟨n / 4 * 3 + 3, by push_cast; ring, by omega⟩
  · exact ⟨n / 4 * 3 + 2, by push_cast; ring, by omega⟩

/-- **The decoder does not overrun its allocation.**  For at least three characters of any kind it
returns, having written no more bytes, the terminator included, than it allocated. -/
theorem base64Decode_in_bounds (junk : CChar) (data : List CChar) (dataLen : ℤ)
    (hpos : 3 ≤ dataLen) (hlen : dataLen ≤ data.length) :
    ∃ equals f, equalCount data dataLen = some equals
      ∧ Returns (base64DecodeCursor · junk data dataLen) f
      ∧ (f.bytes.length : ℤ) = decodeRetLen dataLen equals
      ∧ (f.pos : ℤ) + 1 ≤ decodeRetLen dataLen equals := by
  obtain ⟨n, rfl⟩ := Int.eq_ofNat_of_zero_le (show 0 ≤ dataLen by omega)
  obtain ⟨equals, hle, hequals⟩ := exists_equalCount (show 3 ≤ n by omega)
    (show n ≤ data.length by omega)
  obtain ⟨size, hsize, henough⟩ := decodeRetLen_enough hle (show 3 ≤ n by omega)
  have htext : (data.take (n - equals)).length = n - equals := by
    rw [List.length_take]
    omega
  have hbytes := length_decodeGroups junk (l := data.take (n - equals))
  rw [htext] at hbytes
  refine ⟨equals, ⟨groupwise 4 (decodeGroup junk) (data.take (n - equals))
      ++ List.replicate (size - (groupwise 4 (decodeGroup junk) (data.take (n - equals))).length) 0,
      (groupwise 4 (decodeGroup junk) (data.take (n - equals))).length⟩, hequals,
    ⟨n + 5, fun fuel hfuel => ?_⟩, ?_, ?_⟩
  · beta_reduce
    rw [base64DecodeCursor, hequals, Option.bind_eq_bind, Option.bind_some, hsize, mallocZeroed,
      if_neg (by omega)]
    exact groupLoop_stored (by norm_num) (decodeEmit_writes junk) (List.take_prefix _ _)
      (by rw [htext]; omega) (by omega) (by omega)
  · rw [List.length_append, List.length_replicate, hbytes, hsize]
    omega
  · rw [hsize, hbytes]
    dsimp only
    omega

/-- Five characters, a `'='` before the last one and one that is not in the alphabet. -/
theorem base64Decode_in_bounds_five : ∃ equals f,
    equalCount ("A*B=C".toList.map ascii) 5 = some equals
      ∧ Returns (base64DecodeCursor · 0 ("A*B=C".toList.map ascii) 5) f
      ∧ (f.bytes.length : ℤ) = decodeRetLen 5 equals
      ∧ (f.pos : ℤ) + 1 ≤ decodeRetLen 5 equals :=
  base64Decode_in_bounds 0 ("A*B=C".toList.map ascii) 5 (by decide) (by decide)

end Wgs
