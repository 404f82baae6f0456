import Wgs.DevFifo.Transfer

/-!
The bounds of the FIFO device over whole runs.

`len` is shared by all open files and a write adds what it moved to it, wherever it moved it.
`bounded_iff`: on runs of `open`, `read` and `write` the bounds are kept exactly when every write
asks for no more than the buffer has left after `len`, or starts at `len`.
-/

namespace Wgs

open Foundation

variable {codes : IoctlCodes} {s s' : Fifo} {c : FifoCall} {cs : List FifoCall}

/-! ### Runs of `open`, `read` and `write` -/

/-- The bounds of the device: `len` within the buffer, and so every file position. -/
def Bounded (s : Fifo) : Prop :=
  (0 ≤ s.dev.len ∧ s.dev.len ≤ bufferSize) ∧ ∀ h pos, s.files h = some pos → pos ≤ bufferSize

/-- The range a call copies, if it copies any, lies in the buffer. -/
def RangeInside (s : Fifo) (c : FifoCall) : Prop :=
  ∀ o r, s.outcome c = some o → o.range = some r → r.Inside bufferSize

/-- A write asks for no more than the buffer has left after `len`, or does not start before
`len`. -/
def WriteFits (s : Fifo) : FifoCall → Prop
  | .write h _ size _ _ => ∀ pos, s.files h = some pos →
      (size.toNat : ℤ) ≤ bufferSize - s.dev.len ∨ s.dev.len ≤ pos
  | _ => True

/-- What runs keep: `len` in the buffer and every file position up to `len`. -/
structure InOrder (s : Fifo) : Prop where
  len_nonneg : 0 ≤ s.dev.len
  len_le : s.dev.len ≤ bufferSize
  pos_nonneg : ∀ h pos, s.files h = some pos → 0 ≤ pos
  pos_le : ∀ h pos, s.files h = some pos → pos ≤ s.dev.len

lemma inOrder_init : InOrder .init where
  len_nonneg := le_rfl
  len_le := by decide
  pos_nonneg h pos hpos := by simp [Fifo.init] at hpos
  pos_le h pos hpos := by simp [Fifo.init] at hpos

lemma InOrder.bounded (h : InOrder s) : Bounded s :=
  ⟨⟨h.len_nonneg, h.len_le⟩, fun k pos hpos => (h.pos_le k pos hpos).trans h.len_le⟩

/-- A file moved to a position in order, with `len` not shrinking, leaves all files in order. -/
lemma InOrder.update {d : MyCdev} {k : ℕ} {pos : ℤ} (h : InOrder s) (hgrow : s.dev.len ≤ d.len)
    (hlen : d.len ≤ bufferSize) (hpos : 0 ≤ pos) (hle : pos ≤ d.len) :
    InOrder ⟨d, Function.update s.files k (some pos)⟩ where
  len_nonneg := h.len_nonneg.trans hgrow
  len_le := hlen
  pos_nonneg := Mem.forall_update hpos h.pos_nonneg
  pos_le := Mem.forall_update hle fun j q hq => (h.pos_le j q hq).trans hgrow

/-- The outcome of a read that succeeds, on a file in order. -/
lemma InOrder.read_outcome (hs : InOrder s) {h : ℕ} {size : UInt64} {o : Outcome MyCdev}
    (ho : s.outcome (.read h size 0) = some o) :
    ∃ pos, s.files h = some pos ∧ (0 ≤ pos ∧ pos ≤ s.dev.len)
      ∧ o = devFifoRead s.dev size 0 pos := by
  obtain ⟨pos, hpos, rfl⟩ := Option.map_eq_some_iff.mp ho
  exact ⟨pos, hpos, ⟨hs.pos_nonneg h pos hpos, hs.pos_le h pos hpos⟩, rfl⟩

/-- The outcome of a write that succeeds, on a file in order. -/
lemma InOrder.write_outcome (hs : InOrder s) {h : ℕ} {ubuf rest : ℕ → UInt8} {size : UInt64}
    {o : Outcome MyCdev} (ho : s.outcome (.write h ubuf size 0 rest) = some o) :
    ∃ pos, s.files h = some pos ∧ (0 ≤ pos ∧ pos ≤ s.dev.len)
      ∧ o = devFifoWrite s.dev ubuf size 0 rest pos := by
  obtain ⟨pos, hpos, rfl⟩ := Option.map_eq_some_iff.mp ho
  exact ⟨pos, hpos, ⟨hs.pos_nonneg h pos hpos, hs.pos_le h pos hpos⟩, rfl⟩

/-- On files in order every range copied is in the buffer. -/
lemma InOrder.rangeInside (hs : InOrder s) (hc : c.Plain) : RangeInside s c := by
  intro o r ho hr
  have hlen := hs.len_le
  cases c with
  | openFile h => simp [Fifo.outcome] at ho
  | ioctl h cmd arg fault => exact absurd hc (by simp [FifoCall.Plain])
  | read h size left =>
      obtain rfl : left = 0 := hc
      obtain ⟨pos, -, ⟨hpos, hle⟩, rfl⟩ := hs.read_outcome ho
      rw [devFifoRead_of_le hpos hle hlen] at hr
      simp only [Option.ite_none_left_eq_some, Option.some_inj] at hr
      obtain ⟨-, rfl⟩ := hr
      rw [CopyRange.Inside]
      simp only
      omega
  | write h ubuf size left rest =>
      obtain rfl : left = 0 := hc
      obtain ⟨pos, -, ⟨hpos, hle⟩, rfl⟩ := hs.write_outcome ho
      rcases lt_or_eq_of_le (hle.trans hlen) with hlt | rfl
      · rw [devFifoWrite_of_le hpos hlt hs.len_nonneg hlen, Option.some_inj] at hr
        subst hr
        rw [CopyRange.Inside]
        simp only
        omega
      · rw [devFifoWrite_end] at hr
        simp at hr

/-- **One call** whose write fits keeps the files in order. -/
lemma InOrder.step (hs : InOrder s) (hc : c.Plain) (hfits : WriteFits s c)
    (hstep : FifoStep codes s c s') : InOrder s' := by
  have hlen := hs.len_le
  cases hstep with
  | openFile hnew => exact hs.update le_rfl hlen le_rfl hs.len_nonneg
  | ioctl _ => exact absurd hc (by simp [FifoCall.Plain])
  | transfer ho =>
      cases c with
      | openFile h => simp [Fifo.outcome] at ho
      | ioctl h cmd arg fault => simp [Fifo.outcome] at ho
      | read h size left =>
          obtain rfl : left = 0 := hc
          obtain ⟨pos, -, ⟨hpos, hle⟩, rfl⟩ := hs.read_outcome ho
          rw [devFifoRead_of_le hpos hle hlen]
          exact hs.update le_rfl hlen (by simp only; omega) (by simp only; omega)
      | write h ubuf size left rest =>
          obtain rfl : left = 0 := hc
          obtain ⟨pos, hfile, ⟨hpos, hle⟩, rfl⟩ := hs.write_outcome ho
          rcases lt_or_eq_of_le (hle.trans hlen) with hlt | rfl
          · have hroom := hfits pos hfile
            rw [devFifoWrite_of_le hpos hlt hs.len_nonneg hlen]
            refine hs.update ?_ ?_ ?_ ?_ <;> simp only <;> omega
          · rw [devFifoWrite_end]
            exact hs.update le_rfl hlen hpos hle

/-- A write that does not fit takes `len` past the buffer. -/
lemma InOrder.writeFits (hs : InOrder s) (hc : c.Plain)
    (hbounded : ∀ s', FifoStep codes s c s' → Bounded s') : WriteFits s c := by
  cases c with
  | openFile h => trivial
  | read h size left => trivial
  | ioctl h cmd arg fault => trivial
  | write h ubuf size left rest =>
      obtain rfl : left = 0 := hc
      intro pos hfile
      have hpos := hs.pos_nonneg h pos hfile
      have hle := hs.pos_le h pos hfile
      rcases lt_or_eq_of_le (hle.trans hs.len_le) with hlt | rfl
      · have ho : s.outcome (.write h ubuf size 0 rest)
            = some (devFifoWrite s.dev ubuf size 0 rest pos) := by
          simp only [Fifo.outcome, hfile, Option.map_some]
        have hlen := (hbounded _ (.transfer ho)).1.2
        rw [devFifoWrite_of_le hpos hlt hs.len_nonneg hs.len_le] at hlen
        simp only at hlen
        omega
      · exact Or.inr hs.len_le

/-- **When the bounds are kept**: a run of calls of `open`, `read` and `write` whose copies succeed
keeps `len` and the positions in bounds, and copies in the buffer only, exactly when every write of
it fits. -/
theorem bounded_iff (hcs : ∀ c ∈ cs, c.Plain) :
    (Always (FifoStep codes) .init Bounded cs ∧ AtEvery (FifoStep codes) .init RangeInside cs)
      ↔ AtEvery (FifoStep codes) .init WriteFits cs :=
  always_and_atEvery_iff inOrder_init (fun _ hs => hs.bounded)
    (fun _ _ hs hc _ => hs.rangeInside hc) (fun _ _ _ hs hc hfits hstep => hs.step hc hfits hstep)
    (fun _ _ hs hc _ hbounded => hs.writeFits hc hbounded) (.of_forall hcs)

/-- Two files: one writes 20 bytes, and the other reads them and writes 10 behind them. -/
theorem bounded_iff_two_files :
    Always (FifoStep .sample) .init Bounded [.openFile 0, .openFile 1,
      .write 0 (fun _ => 65) 20 0 fun _ => 0, .read 1 20 0,
      .write 1 (fun _ => 66) 10 0 fun _ => 0] := by
  have hopened : Reaches (FifoStep .sample) .init [.openFile 0, .openFile 1] _ :=
    .step (.step .start (.openFile rfl)) (.openFile rfl)
  have hread : Reaches (FifoStep .sample) .init
      [.openFile 0, .openFile 1, .write 0 (fun _ => 65) 20 0 fun _ => 0, .read 1 20 0] _ :=
    .step (.step hopened (.transfer rfl)) (.transfer rfl)
  refine ((bounded_iff (by simp [FifoCall.Plain])).mpr ?_).1
  have hfirst : AtEvery (FifoStep .sample) .init WriteFits
      [.openFile 0, .openFile 1, .write 0 (fun _ => 65) 20 0 fun _ => 0] := by
    refine .snoc_of_run FifoStep.unique ?_ hopened ?_
    · exact .snoc (.snoc .nil fun _ _ => trivial) fun _ _ => trivial
    · exact fun _ _ => Or.inl (by decide)
  refine .snoc_of_run FifoStep.unique ?_ hread ?_
  · exact hfirst.snoc fun _ _ => trivial
  · exact fun _ _ => Or.inl (by decide +kernel)

/-- **Two files that each write 50 bytes** take `len` to 100; a read from a third one then copies
100 bytes out of the buffer of 50. -/
theorem bounded_two_writes :
    (∃ s, Reaches (FifoStep .sample) .init [.openFile 0, .openFile 1,
          .write 0 (fun _ => 65) 50 0 fun _ => 0,
          .write 1 (fun _ => 66) 50 0 fun _ => 0, .openFile 2] s
        ∧ s.dev.len = 100
        ∧ (s.outcome (.read 2 100 0)).bind Outcome.range = some ⟨0, 100⟩)
      ∧ ¬ Always (FifoStep .sample) .init Bounded [.openFile 0, .openFile 1,
          .write 0 (fun _ => 65) 50 0 fun _ => 0,
          .write 1 (fun _ => 66) 50 0 fun _ => 0, .openFile 2] := by
  obtain ⟨s, hs, hlen, hrange⟩ : ∃ s, Reaches (FifoStep .sample) .init [.openFile 0, .openFile 1,
          .write 0 (fun _ => 65) 50 0 fun _ => 0,
          .write 1 (fun _ => 66) 50 0 fun _ => 0, .openFile 2] s
        ∧ s.dev.len = 100
        ∧ (s.outcome (.read 2 100 0)).bind Outcome.range = some ⟨0, 100⟩ :=
    ⟨_, .step (.step (.step (.step (.step .start (.openFile rfl)) (.openFile rfl))
      (.transfer rfl)) (.transfer rfl)) (.openFile rfl), by decide +kernel,
      by decide +kernel⟩
  refine ⟨⟨s, hs, hlen, hrange⟩, fun hbounded => ?_⟩
  have hle := (hbounded _ (List.prefix_refl _) s hs).1.2
  rw [hlen] at hle
  exact absurd hle (by decide)

end Wgs
