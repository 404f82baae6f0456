import Wgs.DevFifo.Transfer

/-!
The FIFO device with `ioctl`, and with copies that may fail.

`DEV_FIFO_SETVALUE` stores its argument in `len` unchecked, and `dev_fifo_read` trusts `len`.  What
a run is to keep is that `len` stays in the buffer (`LenBounded`) and that the reads are sound
(`ReadSound`); `ioctl_bounded_iff` gives the condition on the steps, `Harmless`, that this is
equivalent to.  Positions may be past `len` here, after `len` was set to less.
-/

namespace Wgs

open Foundation

variable {codes : IoctlCodes} {s s' : Fifo} {c : FifoCall} {cs : List FifoCall}

/-- `len` is in the buffer. -/
def LenBounded (s : Fifo) : Prop := 0 ≤ s.dev.len ∧ s.dev.len ≤ bufferSize

/-- A read copies from the buffer only, and returns a count unless the copy to the user fails. -/
def ReadSound (s : Fifo) : FifoCall → Prop
  | .read h size left => ∀ pos, s.files h = some pos →
      (left = 0 → 0 ≤ (devFifoRead s.dev size left pos).ret)
        ∧ ∀ r, (devFifoRead s.dev size left pos).range = some r → r.Inside bufferSize
  | _ => True

/-- The steps that do no harm: a read at a position up to `len`, or of a size that as an `int` is
a count the buffer has left; a write that fails, that asks for no more than the buffer has left
after `len`, or that does not start before `len`; and `DEV_FIFO_SETVALUE` with an argument that
as an `int` is in the buffer. -/
def Harmless (codes : IoctlCodes) (s : Fifo) : FifoCall → Prop
  | .openFile _ => True
  | .read h size _ => ∀ pos, s.files h = some pos →
      pos ≤ s.dev.len ∨ 0 ≤ toInt32 size.toNat ∧ toInt32 size.toNat ≤ bufferSize - pos
  | .write h _ size left _ => ∀ pos, s.files h = some pos →
      left ≠ 0 ∨ (size.toNat : ℤ) ≤ bufferSize - s.dev.len ∨ s.dev.len ≤ pos
  | .ioctl h cmd arg _ => s.files h ≠ none → cmd = codes.setValue →
      0 ≤ toInt32 arg.toNat ∧ toInt32 arg.toNat ≤ bufferSize

/-- What runs keep: `len` and every file position in the buffer. -/
structure InBuffer (s : Fifo) : Prop where
  len_bounded : LenBounded s
  pos_nonneg : ∀ h pos, s.files h = some pos → 0 ≤ pos
  pos_le : ∀ h pos, s.files h = some pos → pos ≤ bufferSize

lemma inBuffer_init : InBuffer .init where
  len_bounded := ⟨le_rfl, by decide⟩
  pos_nonneg h pos hpos := by simp [Fifo.init] at hpos
  pos_le h pos hpos := by simp [Fifo.init] at hpos

lemma InBuffer.update {d : MyCdev} {k : ℕ} {pos : ℤ} (h : InBuffer s)
    (hlen : 0 ≤ d.len ∧ d.len ≤ bufferSize) (hpos : 0 ≤ pos) (hle : pos ≤ bufferSize) :
    InBuffer ⟨d, Function.update s.files k (some pos)⟩ where
  len_bounded := hlen
  pos_nonneg := Mem.forall_update hpos h.pos_nonneg
  pos_le := Mem.forall_update hle h.pos_le

section Read

variable {d : MyCdev} {size : UInt64} {left : ℕ} {pos : ℤ}

/-- A read in the buffer is sound exactly when it starts up to `len`, or when its size as an `int`
is a count the buffer has left. -/
lemma devFifoRead_sound_iff (hlen : 0 ≤ d.len ∧ d.len ≤ bufferSize) (hpos : 0 ≤ pos) :
    ((left = 0 → 0 ≤ (devFifoRead d size left pos).ret)
        ∧ ∀ r, (devFifoRead d size left pos).range = some r → r.Inside bufferSize)
      ↔ pos ≤ d.len ∨ 0 ≤ toInt32 size.toNat ∧ toInt32 size.toNat ≤ bufferSize - pos := by
  have hbuffer : bufferSize = 50 := rfl
  rcases eq_or_ne pos d.len with rfl | hne
  · simp [devFifoRead]
  · have hret : left = 0 → (devFifoRead d size left pos).ret = readCount d size pos := by
      rintro rfl
      rw [devFifoRead, if_neg hne, if_neg (by simp)]
    have hcount : (0 ≤ readCount d size pos ∧ pos + readCount d size pos ≤ bufferSize)
        ↔ pos ≤ d.len ∨ 0 ≤ toInt32 size.toNat ∧ toInt32 size.toNat ≤ bufferSize - pos := by
      rcases lt_or_gt_of_ne hne with hlt | hgt
      · rw [readCount_of_le hpos hlt.le (by omega)]
        omega
      · rw [readCount_past hlen.1 hgt]
        omega
    rw [devFifoRead_range hne, ← hcount, ← inside_iff isInt32_readCount hpos]
    constructor
    · rintro ⟨-, hinside⟩
      exact hinside _ rfl
    · intro hinside
      refine ⟨fun hleft => ?_, fun r hr => ?_⟩
      · rw [hret hleft]
        exact ((inside_iff isInt32_readCount hpos).mp hinside).1
      · rw [← Option.some_inj.mp hr]
        exact hinside

/-- A sound read leaves the file position in the buffer. -/
lemma devFifoRead_pos_of_sound (left : ℕ) (hlen : 0 ≤ d.len ∧ d.len ≤ bufferSize) (hpos : 0 ≤ pos)
    (hle : pos ≤ bufferSize)
    (hsound : pos ≤ d.len ∨ 0 ≤ toInt32 size.toNat ∧ toInt32 size.toNat ≤ bufferSize - pos) :
    0 ≤ (devFifoRead d size left pos).pos ∧ (devFifoRead d size left pos).pos ≤ bufferSize := by
  have hbuffer : bufferSize = 50 := rfl
  rcases Nat.eq_zero_or_pos left with rfl | hleft
  · rcases le_or_gt pos d.len with hpast | hpast
    · rw [devFifoRead_of_le hpos hpast hlen.2]
      simp only
      omega
    · have hcount := (readCount_past hlen.1 hpast).mpr (hsound.resolve_left (not_le.mpr hpast))
      have hnext : toInt64 (pos + readCount d size pos) = pos + readCount d size pos :=
        toInt64_of_isInt64 ⟨by omega, by omega⟩
      rw [devFifoRead, if_neg hpast.ne', if_neg (by simp)]
      simp only [hnext]
      omega
  · rw [devFifoRead_pos_of_fault hleft.ne']
    exact ⟨hpos, hle⟩

end Read

section Write

variable {d : MyCdev} {ubuf rest : ℕ → UInt8} {size : UInt64} {left : ℕ} {pos : ℤ}

/-- A write in the buffer keeps `len` in the buffer exactly when it fails, asks for no more than
there is left after `len`, or does not start before `len`. -/
lemma devFifoWrite_len_iff (hlen : 0 ≤ d.len ∧ d.len ≤ bufferSize) (hpos : 0 ≤ pos)
    (hle : pos ≤ bufferSize) :
    (0 ≤ (devFifoWrite d ubuf size left rest pos).dev.len
        ∧ (devFifoWrite d ubuf size left rest pos).dev.len ≤ bufferSize)
      ↔ left ≠ 0 ∨ (size.toNat : ℤ) ≤ bufferSize - d.len ∨ d.len ≤ pos := by
  rcases Nat.eq_zero_or_pos left with rfl | hleft
  · rcases lt_or_eq_of_le hle with hlt | rfl
    · rw [devFifoWrite_of_le hpos hlt hlen.1 hlen.2]
      simp only
      omega
    · rw [devFifoWrite_end]
      simp only
      omega
  · rw [(devFifoWrite_of_fault hleft.ne').2]
    simp only [hlen, hleft.ne', true_or, ne_eq, not_false_eq_true, and_self]

/-- A write in the buffer leaves the file position in the buffer. -/
lemma devFifoWrite_pos (hlen : 0 ≤ d.len ∧ d.len ≤ bufferSize) (hpos : 0 ≤ pos)
    (hle : pos ≤ bufferSize) : 0 ≤ (devFifoWrite d ubuf size left rest pos).pos
      ∧ (devFifoWrite d ubuf size left rest pos).pos ≤ bufferSize := by
  rcases Nat.eq_zero_or_pos left with rfl | hleft
  · rcases lt_or_eq_of_le hle with hlt | rfl
    · rw [devFifoWrite_of_le hpos hlt hlen.1 hlen.2]
      simp only
      omega
    · rw [devFifoWrite_end]
      exact ⟨hpos, hle⟩
  · rw [(devFifoWrite_of_fault hleft.ne').1]
    exact ⟨hpos, hle⟩

/-- Only `DEV_FIFO_SETVALUE` touches `len`. -/
lemma devFifoUnlockedIoctl_len (cmd : UInt32) (arg : UInt64) (fault : Bool) :
    (devFifoUnlockedIoctl codes d cmd arg fault).2.1.len
      = if cmd = codes.setValue then toInt32 arg.toNat else d.len := by
  rw [devFifoUnlockedIoctl]
  split_ifs with hclean hset
  · exact absurd (hclean.symm.trans hset) codes.clean_ne_setValue
  all_goals rfl

end Write

/-! ### Runs -/

/-- A harmless step is a sound read, if it is a read. -/
lemma InBuffer.readSound (hs : InBuffer s) (hc : Harmless codes s c) : ReadSound s c := by
  cases c with
  | read h size left =>
      intro pos hfile
      exact (devFifoRead_sound_iff hs.len_bounded (hs.pos_nonneg h pos hfile)).mpr (hc pos hfile)
  | openFile h => trivial
  | write h ubuf size left rest => trivial
  | ioctl h cmd arg fault => trivial

/-- **One harmless step** keeps `len` and the positions in the buffer. -/
lemma InBuffer.step (hs : InBuffer s) (hc : Harmless codes s c) (hstep : FifoStep codes s c s') :
    InBuffer s' := by
  cases hstep with
  | openFile _ => exact hs.update hs.len_bounded le_rfl (by decide)
  | @ioctl h cmd arg fault hopen =>
      refine ⟨?_, hs.pos_nonneg, hs.pos_le⟩
      rw [LenBounded]
      simp only [devFifoUnlockedIoctl_len]
      split_ifs with hset
      · exact hc hopen hset
      · exact hs.len_bounded
  | transfer ho =>
      cases c with
      | openFile h => simp [Fifo.outcome] at ho
      | ioctl h cmd arg fault => simp [Fifo.outcome] at ho
      | read h size left =>
          obtain ⟨pos, hfile, rfl⟩ := Option.map_eq_some_iff.mp ho
          obtain ⟨hpos, hle⟩ := devFifoRead_pos_of_sound left hs.len_bounded
            (hs.pos_nonneg h pos hfile) (hs.pos_le h pos hfile) (hc pos hfile)
          refine hs.update ?_ hpos hle
          rw [devFifoRead_dev]
          exact hs.len_bounded
      | write h ubuf size left rest =>
          obtain ⟨pos, hfile, rfl⟩ := Option.map_eq_some_iff.mp ho
          have hpos := hs.pos_nonneg h pos hfile
          have hle := hs.pos_le h pos hfile
          obtain ⟨hpos', hle'⟩ := devFifoWrite_pos hs.len_bounded hpos hle
          exact hs.update ((devFifoWrite_len_iff hs.len_bounded hpos hle).mpr (hc pos hfile))
            hpos' hle'

/-- A step that is not harmless is an unsound read or takes `len` out of the buffer. -/
lemma InBuffer.harmless (hs : InBuffer s) (hread : ReadSound s c)
    (hlen : ∀ s', FifoStep codes s c s' → LenBounded s') : Harmless codes s c := by
  cases c with
  | openFile h => trivial
  | read h size left =>
      intro pos hfile
      exact (devFifoRead_sound_iff hs.len_bounded (hs.pos_nonneg h pos hfile)).mp
        (hread pos hfile)
  | write h ubuf size left rest =>
      intro pos hfile
      have ho : s.outcome (.write h ubuf size left rest)
          = some (devFifoWrite s.dev ubuf size left rest pos) := by
        simp only [Fifo.outcome, hfile, Option.map_some]
      exact (devFifoWrite_len_iff hs.len_bounded (hs.pos_nonneg h pos hfile)
        (hs.pos_le h pos hfile)).mp (hlen _ (.transfer ho))
  | ioctl h cmd arg fault =>
      intro hopen hset
      have hbounded := hlen _ (.ioctl hopen : FifoStep codes s (.ioctl h cmd arg fault) _)
      rw [LenBounded] at hbounded
      simpa only [devFifoUnlockedIoctl_len, if_pos hset] using hbounded

/-- **When `len` stays in bounds and the reads are sound**: in a run of any calls this is so
throughout exactly when all its steps are harmless. -/
theorem ioctl_bounded_iff (codes : IoctlCodes) (cs : List FifoCall) :
    (Always (FifoStep codes) .init LenBounded cs ∧ AtEvery (FifoStep codes) .init ReadSound cs)
      ↔ AtEvery (FifoStep codes) .init (Harmless codes) cs :=
  always_and_atEvery_iff (D := fun _ _ => True) inBuffer_init (fun _ hs => hs.len_bounded)
    (fun _ _ hs _ hc => hs.readSound hc) (fun _ _ _ hs _ hc hstep => hs.step hc hstep)
    (fun _ _ hs _ hread hlen => hs.harmless hread hlen) fun _ _ _ _ _ => trivial

/-- **`DEV_FIFO_SETVALUE` with 100** sets `len` to 100, and a read of 100 bytes then copies them
out of the buffer of 50. -/
theorem ioctl_setValue_100 :
    (∃ s, Reaches (FifoStep .sample) .init [.openFile 0, .ioctl 0 1 100 false] s
        ∧ s.dev.len = 100 ∧ (s.outcome (.read 0 100 0)).bind Outcome.range = some ⟨0, 100⟩)
      ∧ ¬ Always (FifoStep .sample) .init LenBounded [.openFile 0, .ioctl 0 1 100 false] := by
  obtain ⟨s, hs, hlen, hrange⟩ :
      ∃ s, Reaches (FifoStep .sample) .init [.openFile 0, .ioctl 0 1 100 false] s
        ∧ s.dev.len = 100 ∧ (s.outcome (.read 0 100 0)).bind Outcome.range = some ⟨0, 100⟩ :=
    ⟨_, .step (.step .start (.openFile rfl)) (.ioctl (by simp)), by decide +kernel,
      by decide +kernel⟩
  refine ⟨⟨s, hs, hlen, hrange⟩, fun hbounded => ?_⟩
  have hle := (hbounded _ (List.prefix_refl _) s hs).2
  rw [hlen] at hle
  exact absurd hle (by decide)

end Wgs
