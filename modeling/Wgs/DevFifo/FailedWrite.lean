import Wgs.DevFifo.Transfer

/-!
A `dev_fifo_write` whose copy fails.

`copy_from_user` stores into the live buffer, so what it has copied before it failed stays there,
and what it leaves in the rest of the requested range too.  `devFifoWrite_fault` says what the call
leaves: `len` and the file position as they were, and the buffer as the copy left it.  Another open
file sees the bytes that the copy has changed and no other difference (`failed_write_keeps`).
-/

namespace Wgs

open Foundation

variable {d : MyCdev} {size : UInt64} {ubuf rest : ℕ → UInt8} {left : ℕ} {pos : ℤ}

/-- The number of bytes `copy_from_user` is asked for. -/
def requested (size : UInt64) (pos : ℤ) : ℕ := (toUInt64 (writeCount size pos)).toNat

/-- The number of bytes that a failing `copy_from_user` has stored. -/
def copiedBefore (size : UInt64) (left : ℕ) (pos : ℤ) : ℕ := requested size pos - left

/-- The offset `i` is among the `n` from `pos` on. -/
def InRange (pos : ℤ) (n : ℕ) (i : ℤ) : Prop := pos ≤ i ∧ i < pos + n

instance (pos : ℤ) (n : ℕ) (i : ℤ) : Decidable (InRange pos n i) :=
  inferInstanceAs (Decidable (_ ∧ _))

/-- What a write that fails to copy leaves: the position and `len` as they were, and the buffer as
the copy left it. -/
lemma devFifoWrite_fault (hleft : left ≠ 0)
    (hret : (devFifoWrite d ubuf size left rest pos).ret = efault) :
    (devFifoWrite d ubuf size left rest pos).pos = pos
      ∧ (devFifoWrite d ubuf size left rest pos).dev
        = { d with buffer := copyFromUser d.buffer pos (requested size pos) ubuf left rest } := by
  rw [devFifoWrite] at hret ⊢
  split_ifs at hret ⊢
  · cases hret
  · exact ⟨rfl, rfl⟩

/-- The bytes `copy_from_user` leaves: those it has copied, the rest of the range, and the others as
they were. -/
lemma copyFromUser_apply (mem : ℤ → UInt8) (off i : ℤ) (count : ℕ) :
    copyFromUser mem off count ubuf left rest i
      = if InRange off (count - left) i then ubuf (i - off).toNat
        else if InRange off count i then rest (i - off).toNat else mem i := by
  change (if InRange off count i then
    if (i - off).toNat < count - left then ubuf (i - off).toNat else rest (i - off).toNat
    else mem i) = _
  by_cases hi : InRange off count i
  · have hle := hi.1
    rw [if_pos hi]
    by_cases hcopied : (i - off).toNat < count - left
    · rw [if_pos hcopied, if_pos ⟨hle, by omega⟩]
    · have hout : ¬ InRange off (count - left) i := fun hin => hcopied (by have := hin.2; omega)
      rw [if_neg hcopied, if_neg hout, if_pos hi]
  · have hout : ¬ InRange off (count - left) i := fun hin => hi ⟨hin.1, by have := hin.2; omega⟩
    rw [if_neg hi, if_neg hout, if_neg hi]

/-- A read from a device with the same `len`: it returns the same, and the bytes it is sent differ
where the buffers do. -/
lemma devFifoRead_congr {d' : MyCdev} (hlen : d'.len = d.len) (size : UInt64) (left : ℕ) (pos : ℤ) :
    (devFifoRead d' size left pos).ret = (devFifoRead d size left pos).ret
      ∧ (devFifoRead d' size left pos).pos = (devFifoRead d size left pos).pos
      ∧ (devFifoRead d' size left pos).sent.length = (devFifoRead d size left pos).sent.length
      ∧ ∀ k : ℕ, d'.buffer (pos + k) = d.buffer (pos + k) →
        (devFifoRead d' size left pos).sent[k]? = (devFifoRead d size left pos).sent[k]? := by
  have hcount : readCount d' size pos = readCount d size pos := by rw [readCount, readCount, hlen]
  simp only [devFifoRead, hlen, hcount]
  split_ifs
  · exact ⟨rfl, rfl, rfl, fun k _ => rfl⟩
  · refine ⟨rfl, rfl, by simp only [length_loadRange], fun k hk => ?_⟩
    simp only [getElem?_loadRange, hk]
  · refine ⟨rfl, rfl, by simp only [length_loadRange], fun k hk => ?_⟩
    simp only [getElem?_loadRange, hk]

/-- **A failed write**: when the copy leaves bytes over and `dev_fifo_write` returns `-EFAULT`, the
position and `len` are as before, and the buffer too but for the requested range, which begins with
the bytes that were copied.  A read from any open file returns the same and leaves it at the same
position, and is sent the same bytes but for those that were copied and those that the copy left
otherwise than they were. -/
theorem failed_write_keeps (hleft : left ≠ 0)
    (hret : (devFifoWrite d ubuf size left rest pos).ret = efault) :
    (devFifoWrite d ubuf size left rest pos).pos = pos
      ∧ (devFifoWrite d ubuf size left rest pos).dev.len = d.len
      ∧ (∀ i, (devFifoWrite d ubuf size left rest pos).dev.buffer i
        = if InRange pos (copiedBefore size left pos) i then ubuf (i - pos).toNat
          else if InRange pos (requested size pos) i then rest (i - pos).toNat else d.buffer i)
      ∧ ∀ size' left' pos',
        let before := devFifoRead d size' left' pos'
        let after := devFifoRead (devFifoWrite d ubuf size left rest pos).dev size' left' pos'
        after.ret = before.ret ∧ after.pos = before.pos ∧ after.sent.length = before.sent.length
          ∧ ∀ k : ℕ, ¬ InRange pos (copiedBefore size left pos) (pos' + k) →
            (InRange pos (requested size pos) (pos' + k) →
              rest (pos' + k - pos).toNat = d.buffer (pos' + k)) →
            after.sent[k]? = before.sent[k]? := by
  obtain ⟨hpos, hdev⟩ := devFifoWrite_fault hleft hret
  have hbuffer : ∀ i, (devFifoWrite d ubuf size left rest pos).dev.buffer i
      = if InRange pos (copiedBefore size left pos) i then ubuf (i - pos).toNat
        else if InRange pos (requested size pos) i then rest (i - pos).toNat else d.buffer i := by
    intro i
    rw [hdev]
    exact copyFromUser_apply d.buffer pos i (requested size pos)
  refine ⟨hpos, by rw [hdev], hbuffer, fun size' left' pos' => ?_⟩
  have hlen : (devFifoWrite d ubuf size left rest pos).dev.len = d.len := by rw [hdev]
  obtain ⟨hret', hpos', hlength, hsent⟩ := devFifoRead_congr hlen size' left' pos'
  refine ⟨hret', hpos', hlength, fun k hk hrest => hsent k ?_⟩
  rw [hbuffer, if_neg hk]
  split_ifs with hin
  · exact hrest hin
  · rfl

/-- Two of five bytes were copied, and the other three cleared. -/
theorem failed_write_keeps_three :
    (devFifoWrite ⟨5, fun _ => 65⟩ (fun _ => 66) 5 3 (fun _ => 0) 0).pos = 0
      ∧ (devFifoWrite ⟨5, fun _ => 65⟩ (fun _ => 66) 5 3 (fun _ => 0) 0).dev.buffer 1 = 66
      ∧ (devFifoWrite ⟨5, fun _ => 65⟩ (fun _ => 66) 5 3 (fun _ => 0) 0).dev.buffer 2 = 0
      ∧ (devFifoWrite ⟨5, fun _ => 65⟩ (fun _ => 66) 5 3 (fun _ => 0) 0).dev.buffer 5 = 65 := by
  obtain ⟨hpos, -, hbuffer, -⟩ :=
    @failed_write_keeps ⟨5, fun _ => 65⟩ 5 (fun _ => 66) (fun _ => 0) 3 0 (by decide) (by decide)
  refine ⟨hpos, ?_, ?_, ?_⟩ <;>
  · rw [hbuffer]
    decide

/-- **Two of five bytes** are copied over the data of another file before the copy fails, which
leaves the other three as they were, and a third file reads them. -/
theorem failed_write_observed :
    ∃ s s', Reaches (FifoStep .sample) .init [.openFile 0, .openFile 1, .openFile 2,
          .write 0 (fun _ => 65) 5 0 fun _ => 0] s
      ∧ FifoStep .sample s (.write 1 (fun _ => 66) 5 3 fun _ => 65) s'
      ∧ (s.outcome (.write 1 (fun _ => 66) 5 3 fun _ => 65)).map Outcome.ret = some efault
      ∧ (s.outcome (.read 2 5 0)).map Outcome.sent = some [65, 65, 65, 65, 65]
      ∧ (s'.outcome (.read 2 5 0)).map Outcome.sent = some [66, 66, 65, 65, 65]
      ∧ s'.dev ≠ s.dev := by
  refine ⟨_, _, .step (.step (.step (.step .start (.openFile rfl)) (.openFile rfl)) (.openFile rfl))
    (.transfer rfl), .transfer rfl, rfl, by decide +kernel, by decide +kernel, fun hsame => ?_⟩
  have hfirst := congrArg (fun d => d.buffer 0) hsame
  revert hfirst
  decide +kernel

end Wgs
