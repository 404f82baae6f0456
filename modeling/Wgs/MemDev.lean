import Wgs.CharDev
import Wgs.Foundation.FlatMemory
import Wgs.Foundation.MachineInt
import Wgs.Foundation.Runs

/-!
`memdev.c`: the memory device, against a flat array.

A device is 4096 bytes that any number of open files read, write and seek in.  Integers are those
of an LP64 kernel: `loff_t` and `unsigned long` have 64 bits; the request is cut to an
`unsigned int` of 32.

* `memRead`, `memWrite`, `memLlseek`: the operations;
* `memCount_eq`: within the device the clamp is right, whatever the request is cut to;
* `memdev_flat`: in every run the device holds what was last written, and every call is sound.
-/

namespace Wgs

open Foundation

/-- `MEMDEV_SIZE`. -/
def memdevSize : ℤ := 4096

/-- The bytes at `dev->data`, by their offset. -/
abbrev MemData := ℤ → UInt8

/-- `count` of `mem_read` and `mem_write` at the offset `p`: the request cut to an `unsigned int`,
or what is left of the device. -/
def memCount (size : UInt64) (p : ℤ) : ℤ :=
  let count := toUInt32 size.toNat
  if count > toUInt64 (memdevSize - p) then toUInt32 (toUInt64 (memdevSize - p)) else count

/-- `mem_read` at the file position `pos`; `fault` says that the copy to the user fails. -/
def memRead (data : MemData) (size : UInt64) (fault : Bool) (pos : ℤ) : Outcome MemData :=
  let p := toUInt64 pos
  if p ≥ memdevSize then ⟨0, pos, data, none, []⟩
  else
    let count := memCount size p
    if fault then ⟨efault, pos, data, some ⟨p, count.toNat⟩, []⟩
    else ⟨toInt32 count, toInt64 (pos + count), data, some ⟨p, count.toNat⟩,
      loadRange data p count.toNat⟩

/-- `mem_write` at the file position `pos` of the bytes `ubuf`; `fault` says that the copy from
the user fails. -/
def memWrite (data : MemData) (ubuf : ℕ → UInt8) (size : UInt64) (fault : Bool) (pos : ℤ) :
    Outcome MemData :=
  let p := toUInt64 pos
  if p ≥ memdevSize then ⟨0, pos, data, none, []⟩
  else
    let count := memCount size p
    if fault then ⟨efault, pos, data, some ⟨p, count.toNat⟩, []⟩
    else ⟨toInt32 count, toInt64 (pos + count), storeRange data p count.toNat ubuf,
      some ⟨p, count.toNat⟩, []⟩

/-- `newpos` of `mem_llseek`, if `whence` is one of `SEEK_SET`, `SEEK_CUR` and `SEEK_END`. -/
def seekTarget (offset : Int64) (whence : Int32) (pos : ℤ) : Option ℤ :=
  if whence = 0 then some offset.toInt
  else if whence = 1 then some (toInt64 (pos + offset.toInt))
  else if whence = 2 then some (toInt64 (memdevSize - 1 + offset.toInt))
  else none

/-- `mem_llseek` at the file position `pos`. -/
def memLlseek (data : MemData) (offset : Int64) (whence : Int32) (pos : ℤ) : Outcome MemData :=
  match seekTarget offset whence pos with
  | none => ⟨einval, pos, data, none, []⟩
  | some newpos =>
      if newpos < 0 ∨ newpos > memdevSize then ⟨einval, pos, data, none, []⟩
      else ⟨newpos, newpos, data, none, []⟩

/-! ### Runs of calls -/

/-- The device and the positions of the files. -/
structure MemDev where
  data : MemData
  files : ℕ → ℤ

/-- A call on the file `h`. -/
inductive MemCall where
  | llseek (h : ℕ) (offset : Int64) (whence : Int32)
  | read (h : ℕ) (size : UInt64) (fault : Bool)
  | write (h : ℕ) (ubuf : ℕ → UInt8) (size : UInt64) (fault : Bool)

/-- The file of a call. -/
def MemCall.file : MemCall → ℕ
  | llseek h _ _ => h
  | read h _ _ => h
  | write h _ _ _ => h

/-- The call moves bytes. -/
def MemCall.Transfers : MemCall → Prop
  | llseek _ _ _ => False
  | read _ _ _ => True
  | write _ _ _ _ => True

/-- What a call does at the position its file has. -/
def MemDev.outcome (s : MemDev) : MemCall → Outcome MemData
  | .llseek h offset whence => memLlseek s.data offset whence (s.files h)
  | .read h size fault => memRead s.data size fault (s.files h)
  | .write h ubuf size fault => memWrite s.data ubuf size fault (s.files h)

/-- The device after a call. -/
def MemDev.next (s : MemDev) (c : MemCall) : MemDev :=
  ⟨(s.outcome c).dev, Function.update s.files c.file (s.outcome c).pos⟩

/-- The log after a call: a write that succeeds has written as many bytes as it returns. -/
def MemDev.logged (s : MemDev) (log : WriteLog UInt8) (c : MemCall) : WriteLog UInt8 :=
  match c with
  | .write h ubuf _ _ =>
      if (s.outcome c).ret < 0 then log
      else log ++ [(s.files h, (List.range (s.outcome c).ret.toNat).map ubuf)]
  | _ => log

/-- A call, with the log of the writes kept beside the device. -/
def MemStep (s : MemDev × WriteLog UInt8) (c : MemCall) (s' : MemDev × WriteLog UInt8) : Prop :=
  s' = (s.1.next c, s.1.logged s.2 c)

/-! ### One call -/

section Call

variable {data : MemData} {size : UInt64} {ubuf : ℕ → UInt8} {pos : ℤ}

/-- Within the device, a call moves the request or what is left. -/
lemma memCount_eq (hpos : 0 ≤ pos) (hlt : pos < memdevSize) :
    memCount size pos = min (toUInt32 size.toNat) (memdevSize - pos) := by
  have hsize : memdevSize = 4096 := rfl
  have hleft : toUInt64 (memdevSize - pos) = memdevSize - pos := by
    rw [toUInt64]
    omega
  rw [memCount, hleft]
  split
  · rw [toUInt32_of_isUInt32 ⟨by omega, by omega⟩]
    omega
  · omega

/-- What a call moves is a count of the device's bytes. -/
lemma memCount_bounds (size : UInt64) (hpos : 0 ≤ pos) (hlt : pos < memdevSize) :
    0 ≤ memCount size pos ∧ pos + memCount size pos ≤ memdevSize := by
  rw [memCount_eq hpos hlt]
  have hcut := isUInt32_toUInt32 size.toNat
  rw [IsUInt32] at hcut
  omega

/-- The conversions change nothing of a count that the device has at `pos`. -/
lemma conversions_eq {n : ℤ} (hpos : 0 ≤ pos) (hn : 0 ≤ n) (hle : pos + n ≤ memdevSize) :
    toUInt64 pos = pos ∧ toInt32 n = n ∧ toInt64 (pos + n) = pos + n := by
  rw [memdevSize] at hle
  simp only [toUInt64, toInt32, toInt64]
  omega

/-- `mem_read` at a position that is not negative. -/
lemma memRead_eq (fault : Bool) (hpos : 0 ≤ pos ∧ IsInt64 pos) :
    memRead data size fault pos
      = if memdevSize ≤ pos then ⟨0, pos, data, none, []⟩
        else if fault then ⟨efault, pos, data, some ⟨pos, (memCount size pos).toNat⟩, []⟩
        else ⟨memCount size pos, pos + memCount size pos, data,
          some ⟨pos, (memCount size pos).toNat⟩, loadRange data pos (memCount size pos).toNat⟩ := by
  have hp : toUInt64 pos = pos := toUInt64_of_nonneg hpos.1 hpos.2
  simp only [memRead, hp, ge_iff_le]
  split_ifs with hend hfault
  · rfl
  · rfl
  · obtain ⟨hn, hle⟩ := memCount_bounds size hpos.1 (not_le.mp hend)
    obtain ⟨-, hret, hnext⟩ := conversions_eq hpos.1 hn hle
    rw [hret, hnext]

/-- `mem_write` at a position that is not negative. -/
lemma memWrite_eq (fault : Bool) (hpos : 0 ≤ pos ∧ IsInt64 pos) :
    memWrite data ubuf size fault pos
      = if memdevSize ≤ pos then ⟨0, pos, data, none, []⟩
        else if fault then ⟨efault, pos, data, some ⟨pos, (memCount size pos).toNat⟩, []⟩
        else ⟨memCount size pos, pos + memCount size pos,
          storeRange data pos (memCount size pos).toNat ubuf,
          some ⟨pos, (memCount size pos).toNat⟩, []⟩ := by
  have hp : toUInt64 pos = pos := toUInt64_of_nonneg hpos.1 hpos.2
  simp only [memWrite, hp, ge_iff_le]
  split_ifs with hend hfault
  · rfl
  · rfl
  · obtain ⟨hn, hle⟩ := memCount_bounds size hpos.1 (not_le.mp hend)
    obtain ⟨-, hret, hnext⟩ := conversions_eq hpos.1 hn hle
    rw [hret, hnext]

/-- What `mem_read` and `mem_write` have in common, whatever is copied: the range of the copy is in
the device, and the position moves by what is returned, or the call fails and it stays. -/
lemma copied_inside {data' : MemData} {fault : Bool} {sent : List UInt8} {o : Outcome MemData}
    (hpos : 0 ≤ pos ∧ IsInt64 pos)
    (ho : o = if memdevSize ≤ pos then ⟨0, pos, data, none, []⟩
        else if fault then ⟨efault, pos, data, some ⟨pos, (memCount size pos).toNat⟩, []⟩
        else ⟨memCount size pos, pos + memCount size pos, data',
          some ⟨pos, (memCount size pos).toNat⟩, sent⟩) :
    (∀ r, o.range = some r → r.Inside memdevSize)
      ∧ (o.ret < 0 ∧ o.pos = pos ∨ 0 ≤ o.ret ∧ o.pos = pos + o.ret) := by
  have hneg : efault < 0 := by decide
  subst ho
  split_ifs with hend hfault
  · exact ⟨by simp, Or.inr ⟨le_rfl, (add_zero _).symm⟩⟩
  all_goals
    obtain ⟨hn, hle⟩ := memCount_bounds size hpos.1 (not_le.mp hend)
    have hinside : (⟨pos, (memCount size pos).toNat⟩ : CopyRange).Inside memdevSize :=
      ⟨hpos.1, by dsimp only; omega⟩
    refine ⟨fun r hr => Option.some_inj.mp hr ▸ hinside, ?_⟩
  · exact Or.inl ⟨hneg, rfl⟩
  · exact Or.inr ⟨hn, rfl⟩

/-- `mem_llseek` fails and moves nothing, or returns the position it moves to, in the device. -/
lemma memLlseek_cases (data : MemData) (pos : ℤ) (offset : Int64) (whence : Int32) :
    memLlseek data offset whence pos = ⟨einval, pos, data, none, []⟩
      ∨ ∃ newpos, (0 ≤ newpos ∧ newpos ≤ memdevSize)
        ∧ memLlseek data offset whence pos = ⟨newpos, newpos, data, none, []⟩ := by
  rw [memLlseek]
  cases seekTarget offset whence pos with
  | none => exact Or.inl rfl
  | some newpos =>
      simp only
      split_ifs with hout
      · exact Or.inl rfl
      · rw [not_or, not_lt, not_lt] at hout
        exact Or.inr ⟨newpos, hout, rfl⟩

end Call

/-! ### Runs -/

/-- What runs keep: the device holds what was last written, and the positions are not negative. -/
structure HoldsLog (s : MemDev × WriteLog UInt8) : Prop where
  data_eq : ∀ i, 0 ≤ i → i < memdevSize → s.1.data i = lastWritten 0 s.2 i
  files : ∀ h, 0 ≤ s.1.files h ∧ IsInt64 (s.1.files h)

section Runs

variable {s s' : MemDev × WriteLog UInt8} {c : MemCall}

/-- A file moved to a position that is not negative. -/
lemma HoldsLog.files_update (hs : HoldsLog s) {pos : ℤ} (hpos : 0 ≤ pos ∧ IsInt64 pos) (k h : ℕ) :
    0 ≤ Function.update s.1.files k pos h ∧ IsInt64 (Function.update s.1.files k pos h) := by
  rcases eq_or_ne h k with rfl | hne
  · rw [Function.update_self]
    exact hpos
  · rw [Function.update_of_ne hne]
    exact hs.files h

/-- The position a call leaves is not negative. -/
lemma HoldsLog.outcome_pos (hs : HoldsLog s) (c : MemCall) :
    0 ≤ (s.1.outcome c).pos ∧ IsInt64 (s.1.outcome c).pos := by
  have hsize : memdevSize = 4096 := rfl
  have hint : ∀ {pos : ℤ}, 0 ≤ pos → pos ≤ memdevSize → 0 ≤ pos ∧ IsInt64 pos := by
    intro pos hlo hhi
    refine ⟨hlo, ?_⟩
    rw [IsInt64]
    omega
  cases c with
  | llseek h offset whence =>
      rw [MemDev.outcome]
      rcases memLlseek_cases s.1.data (s.1.files h) offset whence with heq
        | ⟨newpos, ⟨hlo, hhi⟩, heq⟩
      · rw [heq]
        exact hs.files h
      · rw [heq]
        exact hint hlo hhi
  | read h size fault =>
      have hfile := hs.files h
      rw [MemDev.outcome, memRead_eq fault hfile]
      split_ifs with hend
      · exact hfile
      · exact hfile
      · obtain ⟨hn, hle⟩ := memCount_bounds size hfile.1 (not_le.mp hend)
        exact hint (by simp only; omega) hle
  | write h ubuf size fault =>
      have hfile := hs.files h
      rw [MemDev.outcome, memWrite_eq fault hfile]
      split_ifs with hend
      · exact hfile
      · exact hfile
      · obtain ⟨hn, hle⟩ := memCount_bounds size hfile.1 (not_le.mp hend)
        exact hint (by simp only; omega) hle

/-- **One call** leaves the device with what was last written. -/
lemma HoldsLog.step (hs : HoldsLog s) (hstep : MemStep s c s') : HoldsLog s' := by
  subst hstep
  refine ⟨fun i hlo hhi => ?_, hs.files_update (hs.outcome_pos c) c.file⟩
  have hdata := hs.data_eq i hlo hhi
  cases c with
  | llseek h offset whence =>
      rcases memLlseek_cases s.1.data (s.1.files h) offset whence with heq
        | ⟨newpos, -, heq⟩
      · simp only [MemDev.next, MemDev.outcome, heq, MemDev.logged]
        exact hdata
      · simp only [MemDev.next, MemDev.outcome, heq, MemDev.logged]
        exact hdata
  | read h size fault =>
      simp only [MemDev.next, MemDev.outcome, memRead_eq fault (hs.files h), MemDev.logged]
      split_ifs
      · exact hdata
      · exact hdata
      · exact hdata
  | write h ubuf size fault =>
      have ho : s.1.outcome (.write h ubuf size fault) = _ := memWrite_eq fault (hs.files h)
      rcases le_or_gt memdevSize (s.1.files h) with hend | hlt
      · rw [if_pos hend] at ho
        have hstore := storeRange_eq_lastWritten hdata (s.1.files h) 0 ubuf
        rw [storeRange_zero] at hstore
        simpa only [MemDev.next, MemDev.logged, ho, lt_irrefl, if_false, Int.toNat_zero]
          using hstore
      · rw [if_neg (not_le.mpr hlt)] at ho
        cases fault with
        | true =>
            have hneg : efault < 0 := by decide
            simpa only [MemDev.next, MemDev.logged, ho, hneg, if_true] using hdata
        | false =>
            obtain ⟨hn, -⟩ := memCount_bounds size (hs.files h).1 hlt
            simpa only [MemDev.next, MemDev.logged, ho, not_lt.mpr hn, if_false,
              Bool.false_eq_true] using storeRange_eq_lastWritten hdata (s.1.files h) _ ubuf

/-- **A sound call.**  The range copied is in the device, a read sends what was last written, a
transfer advances the position by what it returns, a seek ends in the device, and an error leaves
every position as it was. -/
structure CallSound (s : MemDev × WriteLog UInt8) (c : MemCall) : Prop where
  range_inside : ∀ r, (s.1.outcome c).range = some r → r.Inside memdevSize
  read_eq : ∀ h size fault, c = .read h size fault → 0 ≤ (s.1.outcome c).ret →
    (s.1.outcome c).sent
      = (List.range (s.1.outcome c).ret.toNat).map fun i : ℕ => lastWritten 0 s.2 (s.1.files h + i)
  advance : c.Transfers → 0 ≤ (s.1.outcome c).ret →
    (s.1.next c).files c.file = s.1.files c.file + (s.1.outcome c).ret
  seek : ¬ c.Transfers → 0 ≤ (s.1.outcome c).ret →
    0 ≤ (s.1.next c).files c.file ∧ (s.1.next c).files c.file ≤ memdevSize
  error : (s.1.outcome c).ret < 0 → (s.1.next c).files = s.1.files

/-- An outcome that leaves the position leaves all positions. -/
lemma files_of_pos (h : (s.1.outcome c).pos = s.1.files c.file) :
    (s.1.next c).files = s.1.files := by
  rw [MemDev.next, h]
  exact Function.update_eq_self _ _

/-- What reads and writes have in common: they copy within the device, and move by what they return,
or fail and stay. -/
lemma HoldsLog.transfer (hs : HoldsLog s) (hc : c.Transfers) :
    (∀ r, (s.1.outcome c).range = some r → r.Inside memdevSize)
      ∧ ((s.1.outcome c).ret < 0 ∧ (s.1.outcome c).pos = s.1.files c.file
        ∨ 0 ≤ (s.1.outcome c).ret
          ∧ (s.1.outcome c).pos = s.1.files c.file + (s.1.outcome c).ret) := by
  cases c with
  | llseek h offset whence => exact absurd hc id
  | read h size fault => exact copied_inside (hs.files h) (memRead_eq fault (hs.files h))
  | write h ubuf size fault => exact copied_inside (hs.files h) (memWrite_eq fault (hs.files h))

/-- A read sends what was last written. -/
lemma HoldsLog.sent_eq (hs : HoldsLog s) (h : ℕ) (size : UInt64) (fault : Bool)
    (hret : 0 ≤ (s.1.outcome (.read h size fault)).ret) :
    (s.1.outcome (.read h size fault)).sent
      = (List.range (s.1.outcome (.read h size fault)).ret.toNat).map
          fun i : ℕ => lastWritten 0 s.2 (s.1.files h + i) := by
  have hneg : ¬ 0 ≤ efault := by decide
  rw [MemDev.outcome, memRead_eq fault (hs.files h)] at hret ⊢
  split_ifs at hret ⊢ with hend hfault
  · rfl
  · exact absurd hret hneg
  · obtain ⟨-, hle⟩ := memCount_bounds size (hs.files h).1 (not_le.mp hend)
    refine List.map_congr_left fun i hi => ?_
    have hlt := List.mem_range.mp hi
    have hpos := (hs.files h).1
    exact hs.data_eq _ (by omega) (by omega)

lemma HoldsLog.callSound (hs : HoldsLog s) (c : MemCall) : CallSound s c := by
  by_cases hc : c.Transfers
  · obtain ⟨hinside, hmoves⟩ := hs.transfer hc
    refine ⟨hinside, ?_, fun _ hret => ?_, fun hseek => absurd hc hseek, fun hret => ?_⟩
    · rintro h size fault rfl hret
      exact hs.sent_eq h size fault hret
    · rcases hmoves with ⟨hneg, -⟩ | ⟨-, hpos⟩
      · omega
      · rw [MemDev.next, hpos]
        exact Function.update_self _ _ _
    · rcases hmoves with ⟨-, hpos⟩ | ⟨hnonneg, -⟩
      · exact files_of_pos hpos
      · omega
  · cases c with
    | read h size fault => exact absurd trivial hc
    | write h ubuf size fault => exact absurd trivial hc
    | llseek h offset whence =>
        have hneg : einval < 0 := by decide
        rcases memLlseek_cases s.1.data (s.1.files h) offset whence with heq
          | ⟨newpos, hnew, heq⟩
        · have ho : s.1.outcome (.llseek h offset whence) = _ := heq
          refine ⟨by simp [ho], by simp, fun htransfers => absurd htransfers id, ?_, ?_⟩
          · intro _ hret
            rw [ho] at hret
            exact absurd hret (not_le.mpr hneg)
          · intro _
            exact files_of_pos (by rw [ho]; rfl)
        · have ho : s.1.outcome (.llseek h offset whence) = _ := heq
          refine ⟨by simp [ho], by simp, fun htransfers => absurd htransfers id, ?_, ?_⟩
          · intro _ _
            rw [MemDev.next, ho]
            simpa only [Function.update_self] using hnew
          · intro hret
            rw [ho] at hret
            exact absurd hret (not_lt.mpr hnew.1)

end Runs

/-- **The memory device is a flat array**: after every run of calls, from any positions that are
not negative and a device of zeros, every call is sound. -/
theorem memdev_flat {files : ℕ → ℤ} (hfiles : ∀ h, 0 ≤ files h ∧ IsInt64 (files h))
    {cs : List MemCall} {s : MemDev × WriteLog UInt8}
    (hrun : Reaches MemStep (⟨fun _ => 0, files⟩, []) cs s) (c : MemCall) : CallSound s c := by
  have hstart : HoldsLog (⟨fun _ => 0, files⟩, []) := ⟨fun _ _ _ => rfl, hfiles⟩
  exact (hrun.invariant hstart fun s c s' hs hstep => hs.step hstep).callSound c

/-- A second file reads what the first wrote. -/
theorem memdev_flat_two_files :
    ∃ s, Reaches MemStep (⟨fun _ => 0, fun _ => 0⟩, []) [.write 0 (fun _ => 65) 2 false] s
      ∧ CallSound s (.read 1 3 false)
      ∧ (s.1.outcome (.read 1 3 false)).sent = [65, 65, 0] := by
  have hfiles : ∀ h : ℕ, 0 ≤ (fun _ : ℕ => (0 : ℤ)) h ∧ IsInt64 ((fun _ : ℕ => (0 : ℤ)) h) := by
    simp [IsInt64]
  have hrun : Reaches MemStep (⟨fun _ => 0, fun _ => 0⟩, []) [.write 0 (fun _ => 65) 2 false] _ :=
    .step .start rfl
  exact ⟨_, hrun, memdev_flat hfiles hrun _, by decide +kernel⟩

end Wgs
