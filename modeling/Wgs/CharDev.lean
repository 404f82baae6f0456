import Mathlib.Tactic

/-!
What a `read` or `write` call of a character device leaves: the parts the drivers have in common.
-/

namespace Wgs

/-- `-EFAULT`. -/
def efault : ℤ := -14

/-- `-EINVAL`. -/
def einval : ℤ := -22

/-- The range of the device's memory that is handed to `copy_to_user` or `copy_from_user`: `count`
bytes from the offset `off` on. -/
structure CopyRange where
  off : ℤ
  count : ℕ
  deriving DecidableEq

/-- What a call leaves: the value returned, the file position, the device, the range that was
copied, if the call came to that, and the bytes the reader was sent. -/
structure Outcome (δ : Type) where
  ret : ℤ
  pos : ℤ
  dev : δ
  range : Option CopyRange
  sent : List UInt8

/-- The range lies in a memory of `size` bytes. -/
def CopyRange.Inside (size : ℤ) (r : CopyRange) : Prop := 0 ≤ r.off ∧ r.off + r.count ≤ size

end Wgs
