import Wgs.DevFifo.Transfer

/-!
The counts of `dev_fifo_read` and `dev_fifo_write` at every file position.

Both functions compute their count by one clamp, up to an end that is `len` or the size of the
buffer.  At a position past the end the difference is negative and, being compared with a `size_t`,
larger than nearly every request; what is stored in the `int` is then the request
(`clampedCount_past`).  `counts_clamped_iff` says for which positions and requests the counts do
not exceed what is left.
-/

namespace Wgs

open Foundation

variable {d : MyCdev} {size : UInt64} {limit pos : ℤ}

/-- `n`: the request `size`, or what is left between `pos` and `limit`. -/
def clampedCount (limit : ℤ) (size : UInt64) (pos : ℤ) : ℤ :=
  if (size.toNat : ℤ) > toUInt64 (limit - pos) then toInt32 (limit - pos) else toInt32 size.toNat

lemma readCount_eq_clampedCount : readCount d size pos = clampedCount d.len size pos := rfl

lemma toInt32_toUInt64 (x : ℤ) : toInt32 (toUInt64 x) = toInt32 x := by
  simp only [toInt32, toUInt64]
  omega

lemma writeCount_eq_clampedCount : writeCount size pos = clampedCount bufferSize size pos := by
  rw [writeCount, clampedCount, toInt32_toUInt64]

/-- The position is not past the limit; or the request and the distance to the limit are no more
than `2⁶⁴` together, and the request, as an `int`, is not positive; or they are more, and the
distance, negated, is not positive as an `int`. -/
def CountFits (limit : ℤ) (size : UInt64) (pos : ℤ) : Prop :=
  pos ≤ limit
    ∨ size.toNat + (pos - limit) ≤ 18446744073709551616
        ∧ (size.toNat % 4294967296 = 0 ∨ 2147483648 ≤ size.toNat % 4294967296)
    ∨ 18446744073709551616 < size.toNat + (pos - limit)
        ∧ (pos - limit) % 4294967296 ≤ 2147483648

/-- The values that are not positive as an `int`. -/
lemma toInt32_nonpos_iff (x : ℤ) :
    toInt32 x ≤ 0 ↔ x % 4294967296 = 0 ∨ 2147483648 ≤ x % 4294967296 := by
  rw [toInt32]
  omega

/-- Up to the limit the count is the request or what is left. -/
lemma clampedCount_le (hlimit : limit ≤ 2147483647) (hpos : 0 ≤ pos) (hle : pos ≤ limit) :
    clampedCount limit size pos ≤ limit - pos := by
  rw [clampedCount, toUInt64]
  split
  · rw [toInt32]
    omega
  · rw [toInt32]
    omega

/-- Past the limit the difference is a large number, and the request is let through unless it is
even larger. -/
lemma clampedCount_past (hlimit : 0 ≤ limit) (hpos : IsInt64 pos) (hpast : limit < pos) :
    clampedCount limit size pos
      = if size.toNat + (pos - limit) ≤ 18446744073709551616 then toInt32 size.toNat
        else toInt32 (limit - pos) := by
  rw [IsInt64] at hpos
  have hdiff : toUInt64 (limit - pos) = 18446744073709551616 - (pos - limit) := by
    rw [toUInt64]
    omega
  rw [clampedCount, hdiff]
  split_ifs with hgt hle
  · omega
  · rfl
  · rfl
  · omega

/-- **When a count is clamped.** -/
lemma clampedCount_le_iff (hlimit : 0 ≤ limit) (hlimit' : limit ≤ 2147483647) (hpos : 0 ≤ pos)
    (hpos' : IsInt64 pos) :
    clampedCount limit size pos ≤ max 0 (limit - pos) ↔ CountFits limit size pos := by
  rcases le_or_gt pos limit with hle | hpast
  · have hcount : clampedCount limit size pos ≤ limit - pos := clampedCount_le hlimit' hpos hle
    exact iff_of_true (hcount.trans (le_max_right _ _)) (Or.inl hle)
  · have hzero : max 0 (limit - pos) = 0 := max_eq_left (by omega)
    rw [clampedCount_past hlimit hpos' hpast, hzero, CountFits]
    split_ifs with hsum
    · rw [toInt32_nonpos_iff]
      omega
    · rw [toInt32_nonpos_iff]
      omega

/-- **When both counts are clamped**: `n` of `dev_fifo_read` is at most what is left of the data and
`n` of `dev_fifo_write` at most what is left of the buffer exactly when the position is not past
`len` and the end of the buffer, or the conversions to `int` happen to give no positive number. -/
theorem counts_clamped_iff (hlen : 0 ≤ d.len) (hlen' : d.len ≤ 50) (hpos : 0 ≤ pos)
    (hpos' : IsInt64 pos) :
    (readCount d size pos ≤ max 0 (d.len - pos) ∧ writeCount size pos ≤ max 0 (50 - pos))
      ↔ CountFits d.len size pos ∧ CountFits 50 size pos := by
  rw [readCount_eq_clampedCount, writeCount_eq_clampedCount]
  exact and_congr (clampedCount_le_iff hlen (by omega) hpos hpos')
    (clampedCount_le_iff (by decide) (by decide) hpos hpos')

/-- Five bytes from the position 5 of a device with 10. -/
theorem counts_clamped_inside :
    readCount ⟨10, fun _ => 0⟩ 20 5 ≤ max 0 (10 - 5) ∧ writeCount 20 5 ≤ max 0 (50 - 5) :=
  (counts_clamped_iff (by decide) (by decide) (by decide) ⟨by decide, by decide⟩).mpr
    ⟨Or.inl (by decide), Or.inl (by decide)⟩

/-- **Past the end**: a read of five bytes from the position 1 of an empty device moves five, and so
does a write at the position 60. -/
theorem counts_not_clamped :
    ¬ readCount .zero 5 1 ≤ max 0 (MyCdev.zero.len - 1)
      ∧ ¬ writeCount 5 60 ≤ max 0 (50 - 60)
      ∧ (devFifoRead .zero 5 0 1).ret = 5
      ∧ (devFifoWrite .zero (fun _ => 65) 5 0 (fun _ => 0) 60).ret = 5 := by
  decide

end Wgs
