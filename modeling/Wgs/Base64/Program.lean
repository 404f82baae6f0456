import Wgs.Foundation.Cursor
import Wgs.Foundation.MachineInt

/-!
`C/base64.c`: the encoder and the decoder, loop by loop.

A `char` is eight bits and signed, an `int` is 32 bits: what is shifted and masked is a `BitVec`,
what is compared an integer.  The loops take a bound `fuel` on their iterations.  A read outside of
`data` and a write behind the end of the allocation are faults, and so is the `exit(0)` of an
allocation that fails.  The scratch array `need` of the decoder is left out: four bytes of it are
cleared, one more than the array of three has, and it is never read.  So is the clearing of
`changed`, each entry of which is set before it is read.
-/

namespace Wgs

open Foundation

/-- A `char`: eight bits, signed. -/
abbrev CChar := BitVec 8

/-- The code of a character. -/
def ascii (c : Char) : CChar := BitVec.ofNat 8 c.toNat

/-- `base`, the terminating zero included. -/
def base : List CChar :=
  ['A', 'B', 'C', 'D', 'E', 'F', 'G', 'H', 'I', 'J', 'K', 'L', 'M', 'N', 'O', 'P', 'Q', 'R', 'S',
    'T', 'U', 'V', 'W', 'X', 'Y', 'Z', 'a', 'b', 'c', 'd', 'e', 'f', 'g', 'h', 'i', 'j', 'k', 'l',
    'm', 'n', 'o', 'p', 'q', 'r', 's', 't', 'u', 'v', 'w', 'x', 'y', 'z', '0', '1', '2', '3', '4',
    '5', '6', '7', '8', '9', '+', '/', '='].map ascii ++ [0]

/-- `malloc(size)` and `memset(ret, 0, size)`.  Memory is never exhausted; but a negative `int` is
converted to a `size_t` beyond every object, and there is no memory for it. -/
def mallocZeroed (size : ℤ) : Option (List CChar) :=
  if size < 0 then none else some (List.replicate size.toNat 0)

/-- `strlen`: the place of the first zero. -/
def strlen (s : List CChar) : Option ℕ := s.findIdx? (· = 0)

/-! ### Groups

Both functions shift up to `w` characters into `prepare` and then write a group of the result.  They
differ in `w`, in what a character adds to `prepare` and in what is written. -/

/-- `while (temp < w)`: up to `w` characters are shifted into `prepare`. -/
def gather (w : ℕ) (shift : BitVec 32 → CChar → BitVec 32) (data : List CChar) (stop : ℤ) :
    ℕ → ℕ → ℕ → BitVec 32 → Option (ℕ × ℕ × BitVec 32)
  | 0, _, _, _ => none
  | fuel + 1, tmp, temp, prepare =>
      if temp < w then
        if tmp ≥ stop then some (tmp, temp, prepare)
        else do
          let c ← data[tmp]?
          gather w shift data stop fuel (tmp + 1) (temp + 1) (shift prepare c)
      else some (tmp, temp, prepare)

/-- `while (tmp < stop)`: one group after the other. -/
def groupLoop (w : ℕ) (shift : BitVec 32 → CChar → BitVec 32)
    (emit : ℕ → BitVec 32 → Cursor CChar → Option (Cursor CChar)) (data : List CChar) (stop : ℤ) :
    ℕ → ℕ → Cursor CChar → Option (Cursor CChar)
  | 0, _, _ => none
  | fuel + 1, tmp, f =>
      if tmp < stop then do
        let (tmp, temp, prepare) ← gather w shift data stop fuel tmp 0 0
        let f ← emit temp prepare f
        groupLoop w shift emit data stop fuel tmp f
      else some f

/-! ### The encoder -/

/-- `ret_len` of `base64_encode`. -/
def encodeRetLen (dataLen : ℤ) : ℤ :=
  let retLen := dataLen.tdiv 3
  let temp := dataLen.tmod 3
  let retLen := if temp > 0 then retLen + 1 else retLen
  toInt32 (retLen * 4 + 1)

/-- `(prepare << 8) | (data[tmp] & 0xFF)`. -/
def encodeShift (prepare : BitVec 32) (c : CChar) : BitVec 32 :=
  (prepare <<< 8) ||| (c.signExtend 32 &&& 0xFF)

/-- `changed[i]`. -/
def changed (temp : ℕ) (prepare : BitVec 32) (i : ℕ) : CChar :=
  if temp < i then 0x40 else ((prepare.sshiftRight ((3 - i) * 6)) &&& 0x3F).setWidth 8

/-- The four characters of a group are written. -/
def encodeEmit (temp : ℕ) (prepare : BitVec 32) (f : Cursor CChar) : Option (Cursor CChar) :=
  let prepare := prepare <<< ((3 - temp) * 8)
  [0, 1, 2, 3].foldlM (fun f i => base[(changed temp prepare i).toNat]?.bind f.put) f

/-- `base64_encode`. -/
def base64Encode (fuel : ℕ) (data : List CChar) (dataLen : ℤ) : Option (List CChar) := do
  let ret ← mallocZeroed (encodeRetLen dataLen)
  let f ← groupLoop 3 encodeShift encodeEmit data dataLen fuel 0 ⟨ret, 0⟩
  let f ← f.store 0
  return f.bytes

/-- What `base64_encode` has written when it returns. -/
def base64EncodeCursor (fuel : ℕ) (data : List CChar) (dataLen : ℤ) : Option (Cursor CChar) := do
  let ret ← mallocZeroed (encodeRetLen dataLen)
  let f ← groupLoop 3 encodeShift encodeEmit data dataLen fuel 0 ⟨ret, 0⟩
  f.store 0

/-! ### The decoder -/

/-- `strrchr(s, ch) - s`: the place of the last `ch`, the terminating zero being part of `s`. -/
def strrchr : List CChar → CChar → Option ℕ
  | [], _ => none
  | c :: s, ch =>
      match strrchr s ch with
      | some i => some (i + 1)
      | none => if c = ch then some 0 else none

/-- `find_pos`.  A character that is not in `base` is searched in vain: `junk` is what the
difference of a null pointer and `base` is as a `char`. -/
def findPos (junk ch : CChar) : CChar := (strrchr base ch).elim junk (BitVec.ofNat 8)

/-- `*(data + i)`. -/
def charAt (data : List CChar) (i : ℤ) : Option CChar :=
  if i < 0 then none else data[i.toNat]?

/-- `equal_count`: how many of the last three characters are `'='`. -/
def equalCount (data : List CChar) (dataLen : ℤ) : Option ℕ := do
  let c₁ ← charAt data (dataLen - 1)
  let c₂ ← charAt data (dataLen - 2)
  let c₃ ← charAt data (dataLen - 3)
  return [c₁, c₂, c₃].count (ascii '=')

/-- `ret_len` of `base64_decode`. -/
def decodeRetLen (dataLen : ℤ) (equalCount : ℕ) : ℤ :=
  let retLen := dataLen.tdiv 4 * 3
  match equalCount with
  | 0 => retLen + 4
  | 1 => retLen + 4
  | 2 => retLen + 3
  | 3 => retLen + 2
  | _ => retLen

/-- `(prepare << 6) | (find_pos(data[tmp]))`. -/
def decodeShift (junk : CChar) (prepare : BitVec 32) (c : CChar) : BitVec 32 :=
  (prepare <<< 6) ||| (findPos junk c).signExtend 32

/-- `(char)((prepare >> ((2 - i) * 8)) & 0xFF)`. -/
def decodedByte (prepare : BitVec 32) (i : ℕ) : CChar :=
  ((prepare.sshiftRight ((2 - i) * 8)) &&& 0xFF).setWidth 8

/-- The bytes of a group are written, up to the one at place `temp`. -/
def decodeEmit (temp : ℕ) (prepare : BitVec 32) (f : Cursor CChar) : Option (Cursor CChar) :=
  let prepare := prepare <<< ((4 - temp) * 6)
  ([0, 1, 2].takeWhile (· ≠ temp)).foldlM
    (fun f i => (some (decodedByte prepare i)).bind f.put) f

/-- `base64_decode`. -/
def base64Decode (fuel : ℕ) (junk : CChar) (data : List CChar) (dataLen : ℤ) :
    Option (List CChar) := do
  let equals ← equalCount data dataLen
  let ret ← mallocZeroed (decodeRetLen dataLen equals)
  let f ← groupLoop 4 (decodeShift junk) decodeEmit data (dataLen - equals) fuel 0 ⟨ret, 0⟩
  let f ← f.store 0
  return f.bytes

/-- What `base64_decode` has written when it returns. -/
def base64DecodeCursor (fuel : ℕ) (junk : CChar) (data : List CChar) (dataLen : ℤ) :
    Option (Cursor CChar) := do
  let equals ← equalCount data dataLen
  let ret ← mallocZeroed (decodeRetLen dataLen equals)
  let f ← groupLoop 4 (decodeShift junk) decodeEmit data (dataLen - equals) fuel 0 ⟨ret, 0⟩
  f.store 0

end Wgs
