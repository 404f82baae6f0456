import Wgs.DevFifo.Program

/-!
What one `read` or `write` of the FIFO device does.

Within the buffer the clamps are right: a read at a position up to `len` moves the smaller of the
request and what is left (`readCount_of_le`), and so does a write (`writeCount_eq`).  Past `len` the
difference is negative and the unsigned comparison lets the request through (`readCount_past`).
-/

namespace Wgs

open Foundation

variable {d : MyCdev} {size : UInt64} {ubuf rest : ℕ → UInt8} {left : ℕ} {pos : ℤ}

lemma size_lt (size : UInt64) : (size.toNat : ℤ) < 18446744073709551616 := by
  exact_mod_cast size.toNat_lt

/-- The range of `n` bytes, `n` being an `int`, is in the buffer if `n` is a count and does not
reach past the end. -/
lemma inside_iff {n : ℤ} (hn : IsInt32 n) (hpos : 0 ≤ pos) :
    (⟨pos, (toUInt64 n).toNat⟩ : CopyRange).Inside bufferSize ↔ 0 ≤ n ∧ pos + n ≤ bufferSize := by
  rw [IsInt32] at hn
  simp only [CopyRange.Inside, toUInt64, bufferSize]
  omega

lemma isInt32_readCount : IsInt32 (readCount d size pos) := by
  rw [readCount]
  split <;> exact isInt32_toInt32 _

/-- Up to `len`, a read moves the request or what is left. -/
lemma readCount_of_le (hpos : 0 ≤ pos) (hle : pos ≤ d.len) (hlen : d.len ≤ 2147483647) :
    readCount d size pos = min (size.toNat : ℤ) (d.len - pos) := by
  have := size_lt size
  rw [readCount, toUInt64]
  split
  · rw [toInt32]
    omega
  · rw [toInt32]
    omega

/-- Past `len`, a read moves what the request is as an `int`, or the difference, which is
negative. -/
lemma readCount_past (hlen : 0 ≤ d.len) (hpast : d.len < pos) :
    0 ≤ readCount d size pos ∧ pos + readCount d size pos ≤ bufferSize
      ↔ 0 ≤ toInt32 size.toNat ∧ toInt32 size.toNat ≤ bufferSize - pos := by
  have := size_lt size
  have hbuffer : bufferSize = 50 := rfl
  rw [readCount, toUInt64]
  split
  · simp only [toInt32]
    omega
  · simp only [toInt32]
    omega

/-- In the buffer, a write moves the request or what is left of the buffer. -/
lemma writeCount_eq (hpos : 0 ≤ pos) (hle : pos ≤ bufferSize) :
    writeCount size pos = min (size.toNat : ℤ) (bufferSize - pos) := by
  have := size_lt size
  have hbuffer : bufferSize = 50 := rfl
  rw [writeCount, toUInt64]
  split
  · rw [toInt32]
    omega
  · rw [toInt32]
    omega

lemma toUInt64_eq_bufferSize (hpos : 0 ≤ pos) (hle : pos ≤ bufferSize) :
    toUInt64 pos = bufferSize ↔ pos = bufferSize := by
  simp only [toUInt64, bufferSize] at *
  omega

/-! ### The outcomes -/

/-- A read leaves the device alone. -/
@[simp] lemma devFifoRead_dev : (devFifoRead d size left pos).dev = d := by
  rw [devFifoRead]
  split
  · rfl
  · split <;> rfl

/-- A read away from `len` copies from the file position on. -/
lemma devFifoRead_range (hne : pos ≠ d.len) : (devFifoRead d size left pos).range
    = some ⟨pos, (toUInt64 (readCount d size pos)).toNat⟩ := by
  rw [devFifoRead, if_neg hne]
  split <;> rfl

/-- A failed copy leaves the file position as it was. -/
lemma devFifoRead_pos_of_fault (hleft : left ≠ 0) : (devFifoRead d size left pos).pos = pos := by
  rw [devFifoRead]
  split
  · rfl
  · rfl

/-- A failed copy leaves the file position and `len` as they were. -/
lemma devFifoWrite_of_fault (hleft : left ≠ 0) : (devFifoWrite d ubuf size left rest pos).pos = pos
    ∧ (devFifoWrite d ubuf size left rest pos).dev.len = d.len := by
  rw [devFifoWrite]
  split
  · exact ⟨rfl, rfl⟩
  · exact ⟨rfl, rfl⟩

/-- A read at a position up to `len`: it leaves the device alone and moves the smaller of the
request and what is left. -/
lemma devFifoRead_of_le (hpos : 0 ≤ pos) (hle : pos ≤ d.len) (hlen : d.len ≤ bufferSize) :
    devFifoRead d size 0 pos
      = ⟨min (size.toNat : ℤ) (d.len - pos), pos + min (size.toNat : ℤ) (d.len - pos), d,
          if pos = d.len then none
          else some ⟨pos, (min (size.toNat : ℤ) (d.len - pos)).toNat⟩,
          loadRange d.buffer pos (min (size.toNat : ℤ) (d.len - pos)).toNat⟩ := by
  rw [bufferSize] at hlen
  rw [devFifoRead]
  split
  · next heq =>
      subst heq
      simp
  · have hcount : readCount d size pos = min (size.toNat : ℤ) (d.len - pos) :=
      readCount_of_le hpos hle (by omega)
    generalize hn : min (size.toNat : ℤ) (d.len - pos) = n at *
    have hrange : toUInt64 n = n := toUInt64_of_isUInt64 ⟨by omega, by omega⟩
    have hnext : toInt64 (pos + n) = pos + n := toInt64_of_isInt64 ⟨by omega, by omega⟩
    simp only [hcount, hrange, hnext, Nat.sub_zero, ne_eq, not_true_eq_false, if_false]

/-- A copy that leaves nothing over stores the whole range. -/
lemma copyFromUser_zero (mem : ℤ → UInt8) (off : ℤ) (count : ℕ) :
    copyFromUser mem off count ubuf 0 rest = storeRange mem off count ubuf := by
  funext i
  rw [copyFromUser, storeRange, storeRange]
  by_cases hi : off ≤ i ∧ i < off + count
  · rw [if_pos hi, if_pos hi, if_pos (by omega)]
  · rw [if_neg hi, if_neg hi]

/-- A write in the buffer that succeeds: it stores the smaller of the request and what is left of
the buffer, and adds it to `len`. -/
lemma devFifoWrite_of_le (hpos : 0 ≤ pos) (hlt : pos < bufferSize) (hlen : 0 ≤ d.len)
    (hlen' : d.len ≤ bufferSize) :
    devFifoWrite d ubuf size 0 rest pos
      = ⟨min (size.toNat : ℤ) (bufferSize - pos), pos + min (size.toNat : ℤ) (bufferSize - pos),
          ⟨d.len + min (size.toNat : ℤ) (bufferSize - pos),
            storeRange d.buffer pos (min (size.toNat : ℤ) (bufferSize - pos)).toNat ubuf⟩,
          some ⟨pos, (min (size.toNat : ℤ) (bufferSize - pos)).toNat⟩, []⟩ := by
  have hne : ¬ toUInt64 pos = bufferSize := by
    rw [toUInt64_eq_bufferSize hpos hlt.le]
    omega
  have hcount : writeCount size pos = min (size.toNat : ℤ) (bufferSize - pos) :=
    writeCount_eq hpos hlt.le
  have hbound : bufferSize ≤ 50 := le_rfl
  generalize hn : min (size.toNat : ℤ) (bufferSize - pos) = n at *
  have hrange : toUInt64 n = n := toUInt64_of_isUInt64 ⟨by omega, by omega⟩
  have hnext : toInt64 (pos + n) = pos + n := toInt64_of_isInt64 ⟨by omega, by omega⟩
  have hgrown : toInt32 (d.len + n) = d.len + n := toInt32_of_isInt32 ⟨by omega, by omega⟩
  rw [devFifoWrite, if_neg hne]
  simp only [hcount, hrange, hnext, hgrown, copyFromUser_zero, ne_eq, not_true_eq_false, if_false]

/-- A write at the end of the buffer is refused. -/
lemma devFifoWrite_end : devFifoWrite d ubuf size left rest bufferSize
    = ⟨-1, bufferSize, d, none, []⟩ := by
  rw [devFifoWrite, if_pos (by decide)]

/-- A call leaves one state. -/
lemma FifoStep.unique {codes : IoctlCodes} (s : Fifo) (c : FifoCall) (t t' : Fifo)
    (h : FifoStep codes s c t) (h' : FifoStep codes s c t') : t = t' := by
  cases h with
  | openFile _ =>
      cases h' with
      | openFile _ => rfl
      | transfer ho => simp [Fifo.outcome] at ho
  | ioctl _ =>
      cases h' with
      | transfer ho => simp [Fifo.outcome] at ho
      | ioctl _ => rfl
  | transfer ho =>
      cases h' with
      | openFile _ => simp [Fifo.outcome] at ho
      | transfer ho' =>
          obtain rfl := Option.some_inj.mp (ho.symm.trans ho')
          rfl
      | ioctl _ => simp [Fifo.outcome] at ho

end Wgs
