import Wgs.DevFifo.Bounds

/-!
The FIFO device against a flat file.

The log of a run lists its writes with the file positions they were made at.  `LikeFlatFile` says
that the device is as long as the flat file of the log, which ends at the largest end of a write,
and that a new reader gets its contents, whatever sizes it asks for.

`likeFlatFile_iff`: on runs whose writes end in the buffer the device is like a flat file throughout
exactly when every write that writes something starts at `len`.
-/

namespace Wgs

open Foundation

variable {codes : IoctlCodes} {cs : List FifoCall}

/-! ### The flat file -/

/-- The log after a call. -/
def logged (s : Fifo) (log : WriteLog UInt8) : FifoCall → WriteLog UInt8
  | .write h ubuf size _ _ =>
      match s.files h with
      | some pos => log ++ [(pos, (List.range size.toNat).map ubuf)]
      | none => log
  | _ => log

/-- A call, with the log of the writes kept beside the device. -/
def LogStep (codes : IoctlCodes) (s : Fifo × WriteLog UInt8) (c : FifoCall)
    (s' : Fifo × WriteLog UInt8) : Prop :=
  FifoStep codes s.1 c s'.1 ∧ s'.2 = logged s.1 s.2 c

lemma FifoStep.logStep {f f' : Fifo} {c : FifoCall} (h : FifoStep codes f c f')
    (log : WriteLog UInt8) : LogStep codes (f, log) c (f', logged f log c) := ⟨h, rfl⟩

/-- A reader of the device from the position `pos` on, whose `k`-th request is `sizes k`, until a
read gives it 0; it collects what it is sent. -/
def drain (d : MyCdev) (sizes : ℕ → UInt64) : ℕ → ℕ → ℤ → Option (List UInt8)
  | 0, _, _ => none
  | fuel + 1, k, pos =>
      let o := devFifoRead d (sizes k) 0 pos
      if o.ret = 0 then some [] else (drain d sizes fuel (k + 1) o.pos).map (o.sent ++ ·)

/-- The device is like the flat file: `len` is the end of the last byte written, and a newly
opened file is read as the contents, whatever sizes are asked for. -/
def LikeFlatFile (s : Fifo × WriteLog UInt8) : Prop :=
  s.1.dev.len = lastEnd s.2
    ∧ ∀ sizes, (∀ k, sizes k ≠ 0) →
        Returns (fun fuel => drain s.1.dev sizes fuel 0 0) (contents 0 s.2)

/-- The calls that are considered: no `ioctl`, copies that succeed, and writes that end in the
buffer. -/
def EndsInside (s : Fifo × WriteLog UInt8) (c : FifoCall) : Prop :=
  c.Plain ∧ match c with
    | .write h _ size _ _ => ∀ pos, s.1.files h = some pos → pos + size.toNat ≤ bufferSize
    | _ => True

/-- A write writes nothing, or starts at `len`. -/
def Appends (s : Fifo × WriteLog UInt8) : FifoCall → Prop
  | .write h _ size _ _ => ∀ pos, s.1.files h = some pos → size = 0 ∨ pos = s.1.dev.len
  | _ => True

/-! ### Reading it all -/

/-- A reader gets the bytes from its position up to `len`. -/
lemma drain_eq {d : MyCdev} {sizes : ℕ → UInt64} (hsizes : ∀ k, sizes k ≠ 0)
    (hlen : d.len ≤ bufferSize) {fuel k : ℕ} {pos : ℤ} (hpos : 0 ≤ pos) (hle : pos ≤ d.len)
    (hfuel : (d.len - pos).toNat < fuel) :
    drain d sizes fuel k pos = some (loadRange d.buffer pos (d.len - pos).toNat) := by
  induction fuel generalizing k pos with
  | zero => omega
  | succ fuel ih =>
      have hsize : 0 < (sizes k).toNat := by
        rw [Nat.pos_iff_ne_zero]
        exact fun hzero => hsizes k (UInt64.toNat_inj.mp hzero)
      rw [drain, devFifoRead_of_le hpos hle hlen]
      generalize hn : min ((sizes k).toNat : ℤ) (d.len - pos) = n
      rcases eq_or_lt_of_le hle with heq | hlt
      · have hzero : n = 0 := by omega
        subst hzero
        simp [heq]
      · have hrest : drain d sizes fuel (k + 1) (pos + n)
            = some (loadRange d.buffer (pos + n) (d.len - (pos + n)).toNat) :=
          ih (by omega) (by omega) (by omega)
        have hsplit : (d.len - pos).toNat = n.toNat + (d.len - (pos + n)).toNat := by omega
        have hcast : pos + (n.toNat : ℤ) = pos + n := by omega
        have hne : n ≠ 0 := by omega
        simp only [hne, if_false, hrest, Option.map_some]
        rw [hsplit, loadRange_add, hcast]

/-! ### Runs -/

/-- What runs of appending writes keep: the files are in order, `len` is where the last write ends,
and the buffer up to there holds the contents. -/
structure Mirrors (s : Fifo × WriteLog UInt8) : Prop where
  inOrder : InOrder s.1
  len_eq : s.1.dev.len = lastEnd s.2
  load_eq : loadRange s.1.dev.buffer 0 s.1.dev.len.toNat = contents 0 s.2

lemma mirrors_init : Mirrors (.init, []) where
  inOrder := inOrder_init
  len_eq := rfl
  load_eq := rfl

lemma Mirrors.likeFlatFile {s : Fifo × WriteLog UInt8} (hs : Mirrors s) : LikeFlatFile s := by
  refine ⟨hs.len_eq, fun sizes hsizes => ⟨s.1.dev.len.toNat + 1, fun fuel hfuel => ?_⟩⟩
  have hdrain := drain_eq hsizes hs.inOrder.len_le (k := 0) le_rfl hs.inOrder.len_nonneg
    (by omega : (s.1.dev.len - 0).toNat < fuel)
  rw [sub_zero, hs.load_eq] at hdrain
  exact hdrain

section Steps

variable {s s' : Fifo × WriteLog UInt8} {c : FifoCall}

/-- What a write that ends in the buffer leaves of the device. -/
lemma Mirrors.write_dev (hs : Mirrors s) {h : ℕ} {size : UInt64} {pos : ℤ} (ubuf rest : ℕ → UInt8)
    (hfile : s.1.files h = some pos) (hfits : pos + size.toNat ≤ bufferSize) :
    (devFifoWrite s.1.dev ubuf size 0 rest pos).dev
      = ⟨s.1.dev.len + size.toNat, storeRange s.1.dev.buffer pos size.toNat ubuf⟩ := by
  have hlen := hs.inOrder.len_le
  have hpos := hs.inOrder.pos_nonneg h pos hfile
  have hle := hs.inOrder.pos_le h pos hfile
  rcases lt_or_eq_of_le (hle.trans hlen) with hlt | rfl
  · have hmin : min (size.toNat : ℤ) (bufferSize - pos) = size.toNat := by omega
    rw [devFifoWrite_of_le hpos hlt hs.inOrder.len_nonneg hlen, hmin, Int.toNat_natCast]
  · have hzero : size.toNat = 0 := by omega
    rw [devFifoWrite_end, hzero, storeRange_zero, Nat.cast_zero, add_zero]

/-- **An appending write** leaves the device like the flat file with the bytes appended. -/
lemma Mirrors.write (hs : Mirrors s) {h : ℕ} {ubuf rest : ℕ → UInt8} {size : UInt64} {pos : ℤ}
    (hfile : s.1.files h = some pos) (hfits : pos + size.toNat ≤ bufferSize)
    (happends : size = 0 ∨ pos = s.1.dev.len) (hinOrder : InOrder s'.1)
    (hdev : s'.1.dev = (devFifoWrite s.1.dev ubuf size 0 rest pos).dev)
    (hlog : s'.2 = s.2 ++ [(pos, (List.range size.toNat).map ubuf)]) : Mirrors s' := by
  have hle := hs.inOrder.pos_le h pos hfile
  have hlen := hs.inOrder.len_nonneg
  have hlength : (contents 0 s.2).length = s.1.dev.len.toNat := by
    rw [← hs.load_eq, length_loadRange]
  rw [hs.write_dev ubuf rest hfile hfits] at hdev
  rcases happends with rfl | rfl
  · -- nothing is written
    have hsame : s'.1.dev = s.1.dev := by
      rw [hdev]
      simp
    refine ⟨hinOrder, ?_, ?_⟩
    · rw [hsame, hlog, lastEnd_snoc, ← hs.len_eq]
      simpa using hle
    · rw [hsame, hlog, contents_snoc, hs.load_eq]
      refine (writeAt_nil 0 ?_).symm
      omega
  · -- the bytes go to the end
    refine ⟨hinOrder, ?_, ?_⟩
    · rw [hdev, hlog, lastEnd_snoc, ← hs.len_eq, List.length_map, List.length_range]
      simp only
      omega
    · have hsum : (s.1.dev.len + size.toNat).toNat = s.1.dev.len.toNat + size.toNat := by omega
      have hcast : (0 : ℤ) + (s.1.dev.len.toNat : ℤ) = s.1.dev.len := by omega
      rw [hdev, hlog, contents_snoc, ← hlength, writeAt_end]
      simp only [hsum]
      rw [loadRange_add, hcast, loadRange_storeRange_self,
        loadRange_storeRange_of_disjoint _ _ (Or.inl (by omega)), hs.load_eq]

/-- **One step** whose write appends keeps the device like the flat file. -/
lemma Mirrors.step (hs : Mirrors s) (hc : EndsInside s c) (happends : Appends s c)
    (hstep : LogStep codes s c s') : Mirrors s' := by
  obtain ⟨hplain, hends⟩ := hc
  obtain ⟨f', log'⟩ := s'
  obtain ⟨hstep, hlog⟩ := hstep
  simp only at hstep hlog
  have hfits : WriteFits s.1 c := by
    cases c with
    | write h ubuf size left rest =>
        intro pos hfile
        have hpos := happends pos hfile
        have hend := hends pos hfile
        rcases hpos with rfl | rfl
        · refine Or.inl ?_
          have hlen := hs.inOrder.len_le
          simp only [UInt64.toNat_zero, Nat.cast_zero]
          omega
        · exact Or.inr le_rfl
    | openFile h => trivial
    | read h size left => trivial
    | ioctl h cmd arg fault => trivial
  have hinOrder := hs.inOrder.step hplain hfits hstep
  cases hstep with
  | openFile hnew => exact ⟨hinOrder, hlog ▸ hs.len_eq, hlog ▸ hs.load_eq⟩
  | ioctl _ => exact absurd hplain (by simp [FifoCall.Plain])
  | transfer ho =>
      cases c with
      | openFile h => simp [Fifo.outcome] at ho
      | ioctl h cmd arg fault => simp [Fifo.outcome] at ho
      | read h size left =>
          obtain ⟨pos, hfile, rfl⟩ := Option.map_eq_some_iff.mp ho
          subst hlog
          refine ⟨hinOrder, ?_, ?_⟩
          · simp only [devFifoRead_dev]
            exact hs.len_eq
          · simp only [devFifoRead_dev]
            exact hs.load_eq
      | write h ubuf size left rest =>
          obtain rfl : left = 0 := hplain
          obtain ⟨pos, hfile, rfl⟩ := Option.map_eq_some_iff.mp ho
          rw [logged, hfile] at hlog
          exact hs.write hfile (hends pos hfile) (happends pos hfile) hinOrder rfl hlog

/-- A write below `len` makes `len` larger than the flat file is long. -/
lemma Mirrors.appends (hs : Mirrors s) (hc : EndsInside s c)
    (hlike : ∀ s', LogStep codes s c s' → LikeFlatFile s') : Appends s c := by
  cases c with
  | openFile h => trivial
  | read h size left => trivial
  | ioctl h cmd arg fault => trivial
  | write h ubuf size left rest =>
      obtain ⟨hplain, hends⟩ := hc
      obtain rfl : left = 0 := hplain
      intro pos hfile
      have hle := hs.inOrder.pos_le h pos hfile
      have ho : s.1.outcome (.write h ubuf size 0 rest)
          = some (devFifoWrite s.1.dev ubuf size 0 rest pos) := by
        simp only [Fifo.outcome, hfile, Option.map_some]
      have hlen := (hlike (_, _) ⟨.transfer ho, rfl⟩).1
      simp only [hfile, hs.write_dev ubuf rest hfile (hends pos hfile), lastEnd_snoc, ← hs.len_eq,
        List.length_map, List.length_range] at hlen
      rcases Nat.eq_zero_or_pos size.toNat with hzero | hsize
      · exact Or.inl (UInt64.toNat_inj.mp hzero)
      · exact Or.inr (by omega)

end Steps

/-- **When the device is a flat file**: on a run of calls of `open`, `read` and `write` whose copies
succeed and whose writes end in the buffer, the device is like the flat file throughout exactly
when every write appends. -/
theorem likeFlatFile_iff (hcs : AtEvery (LogStep codes) (.init, []) EndsInside cs) :
    Always (LogStep codes) (.init, []) LikeFlatFile cs
      ↔ AtEvery (LogStep codes) (.init, []) Appends cs :=
  always_iff_atEvery mirrors_init (fun _ hs => hs.likeFlatFile)
    (fun _ _ _ hs hc happends hstep => hs.step hc happends hstep)
    (fun _ _ hs hc hlike => hs.appends hc hlike) hcs

lemma LogStep.unique (s : Fifo × WriteLog UInt8) (c : FifoCall) (t t' : Fifo × WriteLog UInt8)
    (h : LogStep codes s c t) (h' : LogStep codes s c t') : t = t' :=
  Prod.ext (FifoStep.unique s.1 c t.1 t'.1 h.1 h'.1) (h.2.trans h'.2.symm)

/-- Two files, one that writes 20 bytes and one that reads them and appends 10, are like a flat
file. -/
theorem likeFlatFile_iff_two_files :
    Always (LogStep .sample) (.init, []) LikeFlatFile [.openFile 0, .openFile 1,
      .write 0 (fun _ => 65) 20 0 fun _ => 0, .read 1 20 0,
      .write 1 (fun _ => 66) 10 0 fun _ => 0] := by
  have hopened : Reaches (LogStep .sample) (.init, []) [.openFile 0, .openFile 1] _ :=
    .step (.step .start (FifoStep.logStep (.openFile rfl) _)) (FifoStep.logStep (.openFile rfl) _)
  have hread : Reaches (LogStep .sample) (.init, [])
      [.openFile 0, .openFile 1, .write 0 (fun _ => 65) 20 0 fun _ => 0, .read 1 20 0] _ :=
    .step (.step hopened (FifoStep.logStep (.transfer rfl) _)) (FifoStep.logStep (.transfer rfl) _)
  have hends : AtEvery (LogStep .sample) (.init, []) EndsInside
      [.openFile 0, .openFile 1, .write 0 (fun _ => 65) 20 0 fun _ => 0] := by
    refine .snoc_of_run LogStep.unique ?_ hopened ?_
    · exact .snoc (.snoc .nil fun _ _ => ⟨trivial, trivial⟩) fun _ _ => ⟨trivial, trivial⟩
    · refine ⟨rfl, fun pos hpos => ?_⟩
      obtain rfl : (0 : ℤ) = pos := Option.some_inj.mp hpos
      decide
  have happends : AtEvery (LogStep .sample) (.init, []) Appends
      [.openFile 0, .openFile 1, .write 0 (fun _ => 65) 20 0 fun _ => 0] := by
    refine .snoc_of_run LogStep.unique ?_ hopened ?_
    · exact .snoc (.snoc .nil fun _ _ => trivial) fun _ _ => trivial
    · exact fun pos hpos => Or.inr (Option.some_inj.mp hpos).symm
  refine (likeFlatFile_iff ?_).mpr ?_
  · refine .snoc_of_run LogStep.unique ?_ hread ?_
    · exact hends.snoc fun _ _ => ⟨rfl, trivial⟩
    · refine ⟨rfl, fun pos hpos => ?_⟩
      obtain rfl := Option.some_inj.mp hpos
      decide +kernel
  · refine .snoc_of_run LogStep.unique ?_ hread ?_
    · exact happends.snoc fun _ _ => trivial
    · refine fun pos hpos => Or.inr ?_
      rw [← Option.some_inj.mp hpos]
      decide +kernel

/-- **Overlapping writes**: a second file overwrites the first of two bytes.  The flat file has two
bytes; the device says it has three, and sends a reader a third that was never written. -/
theorem likeFlatFile_overlap :
    (∃ s, Reaches (LogStep .sample) (.init, []) [.openFile 0, .openFile 1,
          .write 0 (fun _ => 65) 2 0 fun _ => 0,
          .write 1 (fun _ => 66) 1 0 fun _ => 0] s
        ∧ s.1.dev.len = 3 ∧ lastEnd s.2 = 2 ∧ contents 0 s.2 = [66, 65]
        ∧ drain s.1.dev (fun _ => 50) 4 0 0 = some [66, 65, 0])
      ∧ ¬ Always (LogStep .sample) (.init, []) LikeFlatFile [.openFile 0, .openFile 1,
          .write 0 (fun _ => 65) 2 0 fun _ => 0,
          .write 1 (fun _ => 66) 1 0 fun _ => 0] := by
  obtain ⟨s, hs, hlen, hend, hcontents, hdrain⟩ :
      ∃ s, Reaches (LogStep .sample) (.init, []) [.openFile 0, .openFile 1,
          .write 0 (fun _ => 65) 2 0 fun _ => 0,
          .write 1 (fun _ => 66) 1 0 fun _ => 0] s
        ∧ s.1.dev.len = 3 ∧ lastEnd s.2 = 2 ∧ contents 0 s.2 = [66, 65]
        ∧ drain s.1.dev (fun _ => 50) 4 0 0 = some [66, 65, 0] :=
    ⟨_, .step (.step (.step (.step .start (FifoStep.logStep (.openFile rfl) _))
      (FifoStep.logStep (.openFile rfl) _)) (FifoStep.logStep (.transfer rfl) _))
      (FifoStep.logStep (.transfer rfl) _), by decide +kernel, by decide +kernel,
      by decide +kernel, by decide +kernel⟩
  refine ⟨⟨s, hs, hlen, hend, hcontents, hdrain⟩, fun hlike => ?_⟩
  have heq := (hlike _ (List.prefix_refl _) s hs).1
  rw [hlen, hend] at heq
  exact absurd heq (by decide)

end Wgs
