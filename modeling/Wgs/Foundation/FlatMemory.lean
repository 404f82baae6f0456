import Mathlib.Data.List.GetD
import Mathlib.Tactic

/-!
Ranges of a flat memory, and flat files.

A memory is a function of the offset; `loadRange` and `storeRange` copy a range out of it and into
it.  A flat file is the list of its bytes; `writeAt` overwrites it from a position on, and makes
it longer where the data goes past its end.

A write log says what the two are to hold: `contents` and `lastEnd` for a file that the writes are
applied to in order, `lastWritten` for a memory of a fixed size.
-/

namespace Foundation

variable {α : Type*}

/-! ### Ranges -/

/-- The `n` cells from the offset `off` on. -/
def loadRange (mem : ℤ → α) (off : ℤ) (n : ℕ) : List α :=
  (List.range n).map fun i : ℕ => mem (off + i)

/-- The memory with the `n` cells from the offset `off` on copied from `src`. -/
def storeRange (mem : ℤ → α) (off : ℤ) (n : ℕ) (src : ℕ → α) : ℤ → α := fun i =>
  if off ≤ i ∧ i < off + n then src (i - off).toNat else mem i

@[simp] lemma length_loadRange (mem : ℤ → α) (off : ℤ) (n : ℕ) :
    (loadRange mem off n).length = n := by
  simp [loadRange]

@[simp] lemma loadRange_zero (mem : ℤ → α) (off : ℤ) : loadRange mem off 0 = [] := rfl

@[simp] lemma storeRange_zero (mem : ℤ → α) (off : ℤ) (src : ℕ → α) :
    storeRange mem off 0 src = mem := by
  funext i
  rw [storeRange, if_neg]
  rintro ⟨hlo, hhi⟩
  simp only [Nat.cast_zero, add_zero] at hhi
  omega

lemma getElem?_loadRange (mem : ℤ → α) (off : ℤ) (n k : ℕ) :
    (loadRange mem off n)[k]? = if k < n then some (mem (off + k)) else none := by
  rw [loadRange, List.getElem?_map]
  split_ifs with hk
  · rw [List.getElem?_range hk, Option.map_some]
  · rw [List.getElem?_eq_none (by simpa using hk), Option.map_none]

lemma loadRange_congr {mem mem' : ℤ → α} {off : ℤ} {n : ℕ}
    (h : ∀ i, off ≤ i → i < off + n → mem i = mem' i) :
    loadRange mem off n = loadRange mem' off n := by
  refine List.map_congr_left fun i hi => ?_
  have hlt := List.mem_range.mp hi
  exact h _ (by omega) (by omega)

/-- A range is its two parts. -/
lemma loadRange_add (mem : ℤ → α) (off : ℤ) (n k : ℕ) :
    loadRange mem off (n + k) = loadRange mem off n ++ loadRange mem (off + n) k := by
  rw [loadRange, List.range_add, List.map_append, List.map_map, loadRange, loadRange]
  congr 1
  refine List.map_congr_left fun i _ => ?_
  simp [add_assoc]

/-- A range stored outside of the range loaded does not matter. -/
lemma loadRange_storeRange_of_disjoint (mem : ℤ → α) {off off' : ℤ} {n k : ℕ} (src : ℕ → α)
    (h : off + n ≤ off' ∨ off' + k ≤ off) :
    loadRange (storeRange mem off' k src) off n = loadRange mem off n := by
  refine loadRange_congr fun i hlo hhi => ?_
  rw [storeRange, if_neg]
  omega

/-- What was stored is what is loaded. -/
lemma loadRange_storeRange_self (mem : ℤ → α) (off : ℤ) (n : ℕ) (src : ℕ → α) :
    loadRange (storeRange mem off n src) off n = (List.range n).map src := by
  refine List.map_congr_left fun i hi => ?_
  have hlt := List.mem_range.mp hi
  rw [storeRange, if_pos (by omega)]
  congr 1
  omega

/-! ### Flat files -/

/-- The file with `data` written from the position `pos` on; a gap before it is filled with
`fill`. -/
def writeAt (fill : α) (file : List α) (pos : ℕ) (data : List α) : List α :=
  file.takeD pos fill ++ data ++ file.drop (pos + data.length)

/-- Writing at the end of a file appends to it. -/
lemma writeAt_end (fill : α) (file data : List α) :
    writeAt fill file file.length data = file ++ data := by
  have htake : file.takeD file.length fill = file := by
    rw [List.takeD_eq_take _ le_rfl, List.take_length]
  rw [writeAt, htake, List.drop_eq_nil_of_le (by omega), List.append_nil]

/-- Writing nothing into a file changes nothing. -/
lemma writeAt_nil (fill : α) {file : List α} {pos : ℕ} (hpos : pos ≤ file.length) :
    writeAt fill file pos [] = file := by
  rw [writeAt, List.takeD_eq_take _ hpos]
  simp

/-! ### Write logs -/

/-- The writes made so far: the offset and the data of each. -/
abbrev WriteLog (α : Type*) := List (ℤ × List α)

/-- The largest end position of a write. -/
def lastEnd (log : WriteLog α) : ℤ :=
  log.foldl (fun top w => max top (w.1 + w.2.length)) 0

/-- The file that the writes make when they are applied in order. -/
def contents (fill : α) (log : WriteLog α) : List α :=
  log.foldl (fun file w => writeAt fill file w.1.toNat w.2) []

/-- What was last written at an offset, or `fill` if nothing was. -/
def lastWritten (fill : α) (log : WriteLog α) (i : ℤ) : α :=
  match log.reverse.find? fun w => w.1 ≤ i ∧ i < w.1 + w.2.length with
  | some w => w.2.getD (i - w.1).toNat fill
  | none => fill

lemma lastEnd_snoc (log : WriteLog α) (w : ℤ × List α) :
    lastEnd (log ++ [w]) = max (lastEnd log) (w.1 + w.2.length) := by
  simp [lastEnd]

lemma contents_snoc (fill : α) (log : WriteLog α) (w : ℤ × List α) :
    contents fill (log ++ [w]) = writeAt fill (contents fill log) w.1.toNat w.2 := by
  simp [contents]

lemma lastWritten_snoc (fill : α) (log : WriteLog α) (w : ℤ × List α) (i : ℤ) :
    lastWritten fill (log ++ [w]) i
      = if w.1 ≤ i ∧ i < w.1 + w.2.length then w.2.getD (i - w.1).toNat fill
        else lastWritten fill log i := by
  rw [lastWritten, List.reverse_append, List.reverse_singleton, List.singleton_append,
    List.find?_cons]
  split_ifs with h
  · simp [h]
  · simp only [h, decide_false]
    rfl

/-- A memory that holds what was last written holds it after one more write. -/
lemma storeRange_eq_lastWritten {fill : α} {log : WriteLog α} {mem : ℤ → α} {i : ℤ}
    (h : mem i = lastWritten fill log i) (off : ℤ) (n : ℕ) (src : ℕ → α) :
    storeRange mem off n src i
      = lastWritten fill (log ++ [(off, (List.range n).map src)]) i := by
  rw [lastWritten_snoc, storeRange, List.length_map, List.length_range]
  split_ifs with hi
  · have hlt : (i - off).toNat < n := by omega
    rw [List.getD_eq_getElem _ _ (by simpa using hlt), List.getElem_map, List.getElem_range]
  · exact h

end Foundation
