import Mathlib.Tactic

/-!
Filling an allocation from the front.

A loop that writes `*f = c; f++;` into a buffer it has allocated is embedded over `Cursor`: what the
buffer holds and where the next write goes.  A write past the end of the buffer is a fault.
`Cursor.behind w z k` is the cursor after the entries `w` were written, `k` entries before the end
of a buffer that was filled with `z`; a loop that puts no more than `k` entries succeeds
(`Cursor.foldlM_put`).
-/

namespace Foundation

variable {α ι : Type*}

/-- A buffer and the position of the next write. -/
structure Cursor (α : Type*) where
  bytes : List α
  pos : ℕ
  deriving DecidableEq

namespace Cursor

/-- `*f = c;` -/
def store (out : Cursor α) (c : α) : Option (Cursor α) :=
  if out.pos < out.bytes.length then some ⟨out.bytes.set out.pos c, out.pos⟩ else none

/-- `*f = c; f++;` -/
def put (out : Cursor α) (c : α) : Option (Cursor α) :=
  (out.store c).map fun out => ⟨out.bytes, out.pos + 1⟩

/-- The cursor behind the entries `w`, with room for `k` more, each of which holds `z`. -/
def behind (w : List α) (z : α) (k : ℕ) : Cursor α := ⟨w ++ List.replicate k z, w.length⟩

variable {w cs : List α} {z c : α} {k : ℕ}

lemma store_behind :
    (behind w z (k + 1)).store c = some ⟨w ++ c :: List.replicate k z, w.length⟩ := by
  rw [store, behind, if_pos (by simp)]
  simp [List.replicate_succ]

lemma put_behind : (behind w z (k + 1)).put c = some (behind (w ++ [c]) z k) := by
  rw [put, store_behind]
  simp [behind]

/-- A loop that puts one entry in each of its turns. -/
lemma foldlM_put {is : List ι} {f : ι → Option α} {g : ι → α} (hf : ∀ i ∈ is, f i = some (g i))
    (hlen : is.length ≤ k) :
    is.foldlM (fun out i => (f i).bind (Cursor.put out)) (behind w z k)
      = some (behind (w ++ is.map g) z (k - is.length)) := by
  induction is generalizing w k with
  | nil => simp
  | cons i is ih =>
      obtain ⟨k, rfl⟩ := Nat.exists_eq_add_of_le' (by simp at hlen; omega : 1 ≤ k)
      have hi : f i = some (g i) := hf i (by simp)
      have hrest : ∀ j ∈ is, f j = some (g j) := fun j hj => hf j (by simp [hj])
      rw [List.foldlM_cons, hi, Option.bind_some, put_behind, Option.bind_eq_bind, Option.bind_some,
        ih hrest (by simpa using hlen)]
      simp

end Cursor

end Foundation
