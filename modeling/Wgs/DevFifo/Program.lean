import Wgs.CharDev
import Wgs.Foundation.FlatMemory
import Wgs.Foundation.Heap
import Wgs.Foundation.MachineInt
import Wgs.Foundation.Runs

/-!
`dev_fifo_v2/dev_fifo.c` and `dev_fifo_v3/dev_fifo.c`: the file operations of the FIFO device.

`dev_fifo_read` and `dev_fifo_write` have one text in the two versions, but for the name of the
device (`gcd`, `mycd`); `dev_fifo_unlocked_ioctl` is in the third version only.  Integers are
those of an LP64 kernel: `int` has 32 bits, `loff_t`, `size_t` and `unsigned long` have 64.

* `MyCdev`: the device, and its buffer as a flat memory;
* `devFifoRead`, `devFifoWrite`, `devFifoUnlockedIoctl`: the operations;
* `FifoStep`: one call on an open file, the transition runs are made of.
-/

namespace Wgs

open Foundation

/-- `sizeof(gcd->buffer)`. -/
def bufferSize : ℤ := 50

/-- `struct mycdev`.  `buffer i` is the byte at `gcd->buffer + i`: the array is `0 ≤ i < 50`, and
the other offsets belong to whatever lies around it. -/
structure MyCdev where
  len : ℤ
  buffer : ℤ → UInt8

/-- The device as `kzalloc` leaves it. -/
def MyCdev.zero : MyCdev := ⟨0, fun _ => 0⟩

/-- `n` of `dev_fifo_read`: the request, or what is left of the data.  `size` is a `size_t` and
the difference a `loff_t`, so the comparison is unsigned. -/
def readCount (d : MyCdev) (size : UInt64) (pos : ℤ) : ℤ :=
  if (size.toNat : ℤ) > toUInt64 (d.len - pos) then toInt32 (d.len - pos)
  else toInt32 size.toNat

/-- `dev_fifo_read`, at the file position `pos`; `left` is what `copy_to_user` returns, the number
of bytes at the end of the range that could not be copied. -/
def devFifoRead (d : MyCdev) (size : UInt64) (left : ℕ) (pos : ℤ) : Outcome MyCdev :=
  if pos = d.len then ⟨0, pos, d, none, []⟩
  else
    let n := readCount d size pos
    let count := (toUInt64 n).toNat
    let sent := loadRange d.buffer pos (count - left)
    if left ≠ 0 then ⟨efault, pos, d, some ⟨pos, count⟩, sent⟩
    else ⟨n, toInt64 (pos + n), d, some ⟨pos, count⟩, sent⟩

/-- `n` of `dev_fifo_write`: the request, or what is left of the buffer. -/
def writeCount (size : UInt64) (pos : ℤ) : ℤ :=
  if (size.toNat : ℤ) > toUInt64 (bufferSize - pos) then toInt32 (toUInt64 (bufferSize - pos))
  else toInt32 size.toNat

/-- `copy_from_user`, of `count` bytes `ubuf` to the offset `off`: the last `left` bytes of the
range are not copied, and `rest` is what it leaves there (zero bytes, or what was there). -/
def copyFromUser (mem : ℤ → UInt8) (off : ℤ) (count : ℕ) (ubuf : ℕ → UInt8) (left : ℕ)
    (rest : ℕ → UInt8) : ℤ → UInt8 :=
  storeRange mem off count fun i => if i < count - left then ubuf i else rest i

/-- `dev_fifo_write`, at the file position `pos`, of the bytes `ubuf`; `left` is what
`copy_from_user` returns, the number of bytes at the end of the range that were not copied, and
`rest` what it leaves in their place. -/
def devFifoWrite (d : MyCdev) (ubuf : ℕ → UInt8) (size : UInt64) (left : ℕ) (rest : ℕ → UInt8)
    (pos : ℤ) : Outcome MyCdev :=
  if toUInt64 pos = bufferSize then ⟨-1, pos, d, none, []⟩
  else
    let n := writeCount size pos
    let count := (toUInt64 n).toNat
    let d := { d with buffer := copyFromUser d.buffer pos count ubuf left rest }
    if left ≠ 0 then ⟨efault, pos, d, some ⟨pos, count⟩, []⟩
    else ⟨n, toInt64 (pos + n), { d with len := toInt32 (d.len + n) }, some ⟨pos, count⟩, []⟩

/-- The codes `DEV_FIFO_CLEAN`, `DEV_FIFO_SETVALUE` and `DEV_FIFO_GETVALUE`.  No header of the
repository has them; as labels of one `switch` they differ. -/
structure IoctlCodes where
  clean : UInt32
  setValue : UInt32
  getValue : UInt32
  clean_ne_setValue : clean ≠ setValue
  clean_ne_getValue : clean ≠ getValue
  setValue_ne_getValue : setValue ≠ getValue

/-- Codes to run the model with. -/
def IoctlCodes.sample : IoctlCodes := ⟨0, 1, 2, by decide, by decide, by decide⟩

/-- `dev_fifo_unlocked_ioctl`, with the value that `put_user` stores; `fault` says that it
fails. -/
def devFifoUnlockedIoctl (codes : IoctlCodes) (d : MyCdev) (cmd : UInt32) (arg : UInt64)
    (fault : Bool) : ℤ × MyCdev × Option ℤ :=
  if cmd = codes.clean then
    (0, { d with buffer := storeRange d.buffer 0 bufferSize.toNat fun _ => 0 }, none)
  else if cmd = codes.setValue then (0, { d with len := toInt32 arg.toNat }, none)
  else if cmd = codes.getValue then
    if fault then (efault, d, none) else (0, d, some d.len)
  else (efault, d, none)

/-! ### Runs of calls -/

/-- The one device and the positions of its open files. -/
structure Fifo where
  dev : MyCdev
  files : Mem ℤ

/-- The device after `dev_fifo_init`, with no file open. -/
def Fifo.init : Fifo := ⟨.zero, fun _ => none⟩

/-- A call on the open file `h`.  A copy to or from the user leaves `left` bytes uncopied, one from
the user with `rest` in their place, and `put_user` fails if `fault` says so. -/
inductive FifoCall where
  | openFile (h : ℕ)
  | read (h : ℕ) (size : UInt64) (left : ℕ)
  | write (h : ℕ) (ubuf : ℕ → UInt8) (size : UInt64) (left : ℕ) (rest : ℕ → UInt8)
  | ioctl (h : ℕ) (cmd : UInt32) (arg : UInt64) (fault : Bool)

/-- The call is an `open`, or a `read` or `write` whose copy succeeds. -/
def FifoCall.Plain : FifoCall → Prop
  | openFile _ => True
  | read _ _ left => left = 0
  | write _ _ _ left _ => left = 0
  | ioctl _ _ _ _ => False

/-- The file of a call. -/
def FifoCall.file : FifoCall → ℕ
  | openFile h => h
  | read h _ _ => h
  | write h _ _ _ _ => h
  | ioctl h _ _ _ => h

/-- What a `read` or `write` does at the position its file has. -/
def Fifo.outcome (s : Fifo) : FifoCall → Option (Outcome MyCdev)
  | .read h size left => (s.files h).map fun pos => devFifoRead s.dev size left pos
  | .write h ubuf size left rest =>
      (s.files h).map fun pos => devFifoWrite s.dev ubuf size left rest pos
  | _ => none

/-- One call.  An `open` gets a file that is not open, at the position 0; the other calls are made
on an open file. -/
inductive FifoStep (codes : IoctlCodes) (s : Fifo) : FifoCall → Fifo → Prop where
  | openFile {h : ℕ} :
      s.files h = none →
      FifoStep codes s (.openFile h) ⟨s.dev, Function.update s.files h (some 0)⟩
  | transfer {c : FifoCall} {o : Outcome MyCdev} :
      s.outcome c = some o →
      FifoStep codes s c ⟨o.dev, Function.update s.files c.file (some o.pos)⟩
  | ioctl {h : ℕ} {cmd : UInt32} {arg : UInt64} {fault : Bool} :
      s.files h ≠ none →
      FifoStep codes s (.ioctl h cmd arg fault)
        ⟨(devFifoUnlockedIoctl codes s.dev cmd arg fault).2.1, s.files⟩

end Wgs
