import Wgs.Foundation.Cells

/-!
`C/fenkuaichazhao.c`: the search in an array of three blocks.

`main` makes an index of the blocks, in which each block is represented by its last element, and
`block_search` looks for the key in the first block whose representative is not smaller.  Where the
blocks are in order that finds every key but those larger than the last element of their block
(`search_finds_iff`).
-/

namespace Wgs.BlockSearch

open Foundation

/-! ### The program -/

/-- `struct index`; the field `end` is `last` here. -/
structure Index where
  key : ℤ
  start : ℤ
  last : ℤ
  deriving Inhabited, DecidableEq

/-- `for (i = 1; i <= 3; i++)` of `main`, from some `i` and `j` on. -/
def indexLoop (a : Cells ℤ) : ℕ → Cells Index × ℤ × ℤ → Option (Cells Index × ℤ × ℤ) :=
  whileLoop
    (fun (_, i, _) => return i ≤ 3)
    (fun _ (table, i, j) => do
      let start := j + 1
      let j := j + 1
      let last := j + 4
      let j := j + 4
      let key ← a.load j
      let table ← table.store i ⟨key, start, last⟩
      return (table, i + 1, j))

/-- `index_table` as `main` fills it. -/
def indexTable (fuel : ℕ) (a : Cells ℤ) : Option (Cells Index) := do
  let (table, _) ← indexLoop a fuel (List.replicate 4 ⟨0, 0, 0⟩, 1, 0)
  return table

/-- `block_search`. -/
def blockSearch (fuel : ℕ) (key : ℤ) (a : Cells ℤ) (table : Cells Index) : Option ℤ := do
  let i ← scan 3 (fun i => (table.load i).map fun block => !(key > block.key)) fuel 1
  if i > 3 then return 0
  else
    let block ← table.load i
    let j ← scan block.last (fun j => (a.load j).map fun v => !(v ≠ key)) fuel block.start
    if j > block.last then return 0 else return j

/-- `main`: the index, and the search. -/
def search (fuel : ℕ) (key : ℤ) (a : Cells ℤ) : Option ℤ := do
  let table ← indexTable fuel a
  blockSearch fuel key a table

/-! ### Blocks -/

/-- The indices of the block `b`. -/
def block (b : ℤ) : Set ℤ := Set.Icc (5 * b - 4) (5 * b)

/-- All elements of a block are smaller than those of the next one. -/
def InOrder (a : Cells ℤ) : Prop :=
  ∀ b, 1 ≤ b → b < 3 → ∀ i ∈ block b, ∀ j ∈ block (b + 1), a.cell i < a.cell j

/-- The key is one of the elements `a[1..15]`. -/
def Occurs (key : ℤ) (a : Cells ℤ) : Prop := ∃ i ∈ Set.Icc 1 15, a.cell i = key

/-- The search ends, with an index that holds the key if the key occurs and with 0 otherwise. -/
def Finds (key : ℤ) (a : Cells ℤ) : Prop :=
  ∃ r, Returns (fun fuel => search fuel key a) r
    ∧ (Occurs key a → r ∈ Set.Icc 1 15 ∧ a.cell r = key) ∧ (¬ Occurs key a → r = 0)

variable {key b c i j : ℤ} {a : Cells ℤ}

lemma InOrder.lt (ha : InOrder a) (hb : 1 ≤ b) (hbc : b < c) (hc : c ≤ 3) (hi : i ∈ block b)
    (hj : j ∈ block c) : a.cell i < a.cell j := by
  rcases (show c = b + 1 ∨ c = b + 1 + 1 by omega) with rfl | rfl
  · exact ha b hb (by omega) i hi j hj
  · have hmid : 5 * (b + 1) ∈ block (b + 1) := ⟨by omega, le_rfl⟩
    calc a.cell i < a.cell (5 * (b + 1)) := ha b hb (by omega) i hi _ hmid
      _ < a.cell j := ha (b + 1) (by omega) (by omega) _ hmid j hj

/-- A block whose last element is not smaller than an element of the block `b` is not in front
of it. -/
lemma InOrder.block_le (ha : InOrder a) (hi : 1 ≤ i) (hb : b ≤ 3) (hj : j ∈ block b)
    (hle : i ≤ 3 → a.cell j ≤ a.cell (5 * i)) : b ≤ i := by
  by_contra hib
  have hlt : a.cell (5 * i) < a.cell j := ha.lt hi (not_le.mp hib) hb ⟨by omega, le_rfl⟩ hj
  exact absurd hlt (not_lt.mpr (hle (by omega)))

lemma mem_of_block (hb : 1 ≤ b) (hb' : b ≤ 3) (hi : i ∈ block b) : i ∈ Set.Icc 1 15 := by
  obtain ⟨hlow, hhigh⟩ := hi
  exact ⟨by omega, by omega⟩

/-- Every place is in a block. -/
lemma exists_block (hi : i ∈ Set.Icc 1 15) : ∃ b, 1 ≤ b ∧ b ≤ 3 ∧ i ∈ block b := by
  obtain ⟨hlow, hhigh⟩ := hi
  exact ⟨(i + 4) / 5, by omega, by omega, by omega, by omega⟩

/-! ### The search -/

/-- The entry that the index has for the block `b`. -/
def entry (a : Cells ℤ) (b : ℤ) : Index := ⟨a.cell (5 * b), 5 * b - 4, 5 * b⟩

/-- **The index** has the last element of every block. -/
lemma indexTable_ends (hlen : a.length = 16) :
    Ends (fun fuel => indexTable fuel a) fun table =>
      ∀ b, 1 ≤ b → b ≤ 3 → table.load b = some (entry a b) := by
  have hloop : Ends (fun fuel => indexLoop a fuel (List.replicate 4 ⟨0, 0, 0⟩, 1, 0)) fun r =>
      r.1.length = 4 ∧ ∀ b, 1 ≤ b → b ≤ 3 → r.1.cell b = entry a b := by
    refine Ends.whileLoop
      (I := fun r => r.1.length = 4 ∧ 1 ≤ r.2.1 ∧ r.2.1 ≤ 4 ∧ r.2.2 = 5 * (r.2.1 - 1)
        ∧ ∀ b, 1 ≤ b → b < r.2.1 → r.1.cell b = entry a b)
      (fun r => (4 - r.2.1).toNat) (fun r hr => ?_)
      ⟨rfl, le_rfl, by decide, by decide, fun b hb hlt => by dsimp only at hlt; omega⟩
    obtain ⟨table, i, j⟩ := r
    obtain ⟨hsize, hi, hi', hj, hentries⟩ := hr
    dsimp only at *
    by_cases hin : i ≤ 3
    · refine Or.inl ⟨by simp [hin], Ends.load (by omega) (by omega)
        (Ends.store (by omega) (by omega) fun table' hsize' htable => .of_eq (fun _ => rfl) ?_)⟩
      dsimp only
      refine ⟨⟨by omega, by omega, by omega, by omega, fun b hb hlt => ?_⟩, by omega⟩
      rw [htable]
      by_cases hbi : b = i
      · have hstart : j + 1 = 5 * i - 4 := by omega
        have hend : j + 1 + 4 = 5 * i := by omega
        rw [hbi, Function.update_self, entry, hend, hstart]
      · rw [Function.update_of_ne hbi, hentries b hb (by omega)]
    · exact Or.inr ⟨by simp [hin], hsize, fun b hb hb' => hentries b hb (by omega)⟩
  refine hloop.bind fun r hr => .of_eq (fun _ => rfl) fun b hb hb' => ?_
  rw [Cells.load_eq (by omega) (by omega), hr.2 b hb hb']

/-- What the search returns: the first block whose last element is not smaller than the key is
looked through. -/
lemma search_ends (hlen : a.length = 16) :
    Ends (fun fuel => search fuel key a) fun r => ∃ i, 1 ≤ i ∧ i ≤ 4
      ∧ (∀ b, 1 ≤ b → b < i → a.cell (5 * b) < key) ∧ (i ≤ 3 → key ≤ a.cell (5 * i))
      ∧ (r = 0 ∧ (i ≤ 3 → ∀ k ∈ block i, a.cell k ≠ key)
        ∨ i ≤ 3 ∧ r ∈ block i ∧ a.cell r = key) := by
  refine (indexTable_ends hlen).bind fun table htable => ?_
  have hchoose : ∀ i, 1 ≤ i → i ≤ 3 →
      ((table.load i).map fun block => !(decide (key > block.key)))
        = some (decide (key ≤ a.cell (5 * i))) := by
    intro i hi hi'
    rw [htable i hi hi']
    simp [entry, ← decide_not]
  refine (scan_ends hchoose (by decide)).bind fun i hi => ?_
  obtain ⟨hi, hi', hbefore, hhere⟩ := hi
  simp only [not_le] at hbefore
  by_cases hlast : i > 3
  · simp only [hlast, if_true]
    refine .of_eq (fun _ => rfl) ⟨i, hi, hi', hbefore, hhere, Or.inl ⟨rfl, fun h => ?_⟩⟩
    omega
  · simp only [hlast, if_false, htable i hi (by omega), entry]
    have hlook : ∀ j, 5 * i - 4 ≤ j → j ≤ 5 * i →
        ((a.load j).map fun v => !(decide (v ≠ key))) = some (decide (a.cell j = key)) := by
      intro j hj hj'
      rw [Cells.load_eq (by omega) (by omega)]
      simp
    refine (scan_ends hlook (by omega)).bind fun j hj => ?_
    obtain ⟨hj, hj', hnot, hfound⟩ := hj
    by_cases hend : j > 5 * i
    · simp only [hend, if_true]
      refine .of_eq (fun _ => rfl) ⟨i, hi, hi', hbefore, hhere, Or.inl ⟨rfl, fun _ k hk => ?_⟩⟩
      exact hnot k hk.1 (by have := hk.2; omega)
    · simp only [hend, if_false]
      exact .of_eq (fun _ => rfl) ⟨i, hi, hi', hbefore, hhere,
        Or.inr ⟨by omega, ⟨hj, by omega⟩, hfound (by omega)⟩⟩

/-- **When the block search is right**, for blocks in order: exactly when the key is not larger than
the last element of a block that it occurs in. -/
theorem search_finds_iff (hlen : a.length = 16) (ha : InOrder a) :
    Finds key a ↔ ∀ b, 1 ≤ b → b ≤ 3 → ∀ i ∈ block b, a.cell i = key → key ≤ a.cell (5 * b) := by
  obtain ⟨r, hreturns, i, hi, hi', hbefore, hhere, hr⟩ := search_ends hlen
  -- no block in front of the key's is looked through
  have hge : ∀ b, b ≤ 3 → ∀ p ∈ block b, a.cell p = key → b ≤ i :=
    fun b hb p hp hkey => ha.block_le hi hb hp fun hi₃ => hkey.trans_le (hhere hi₃)
  constructor
  · rintro ⟨r', hreturns', hfound, -⟩ b hb hb' p hp hkey
    obtain rfl := hreturns.unique hreturns'
    obtain ⟨hrange, hheld⟩ := hfound ⟨p, mem_of_block hb hb' hp, hkey⟩
    -- otherwise a block behind `b` was looked through, and its elements are larger
    by_contra hless
    have hbi : b < i := by
      refine (hge b hb' p hp hkey).lt_of_ne ?_
      rintro rfl
      exact hless (hhere hb')
    rcases hr with ⟨rfl, -⟩ | ⟨hi₃, hmem, -⟩
    · exact absurd hrange.1 (by decide)
    · have hlt := ha.lt hb hbi hi₃ hp hmem
      rw [hkey, hheld] at hlt
      exact lt_irrefl _ hlt
  · intro hcond
    refine ⟨r, hreturns, ?_, ?_⟩
    · rintro ⟨p, hp, hkey⟩
      obtain ⟨b, hb, hb', hpb⟩ := exists_block hp
      have hle := hcond b hb hb' p hpb hkey
      obtain rfl : b = i := by
        refine (hge b hb' p hpb hkey).eq_of_not_lt fun hbi => ?_
        exact absurd (hbefore b hb hbi) (not_lt.mpr hle)
      rcases hr with ⟨-, hnot⟩ | ⟨-, hmem, hheld⟩
      · exact absurd hkey (hnot hb' p hpb)
      · exact ⟨mem_of_block hb hb' hmem, hheld⟩
    · intro hnot
      rcases hr with ⟨hzero, -⟩ | ⟨hi₃, hmem, hheld⟩
      · exact hzero
      · exact absurd ⟨r, mem_of_block hi hi₃ hmem, hheld⟩ hnot

/-- The numbers from 1 to 15, the first cell being unused. -/
def ascendingArray : Cells ℤ := Cells.ofFun id 15

/-- The same with the first block in the order 1, 2, 5, 3, 4. -/
def mixedArray : Cells ℤ :=
  Cells.ofFun (fun i => if i = 3 then 5 else if i = 4 then 3 else if i = 5 then 4 else i) 15

/-- The blocks of the ascending array. -/
theorem search_finds_ascending : Finds 5 ascendingArray := by
  have hcell : ∀ i, 0 ≤ i → i ≤ 15 → ascendingArray.cell i = i :=
    fun i hi hi' => Cells.cell_ofFun hi hi'
  refine (search_finds_iff rfl fun b hb hb' i hi j hj => ?_).mpr fun b hb hb' i hi hkey => ?_
  · obtain ⟨hi, hi'⟩ := hi
    obtain ⟨hj, hj'⟩ := hj
    rw [hcell i (by omega) (by omega), hcell j (by omega) (by omega)]
    omega
  · obtain ⟨hi, hi'⟩ := hi
    rw [hcell i (by omega) (by omega)] at hkey
    rw [hcell _ (by omega) (by omega)]
    omega

/-- **The largest element in the middle of its block** is not found: the index has 4 for the first
block, and 5 is looked for in the second one. -/
theorem search_mixed_fails :
    InOrder mixedArray ∧ mixedArray.cell 3 = 5
      ∧ Returns (fun fuel => search fuel 5 mixedArray) 0 ∧ ¬ Finds 5 mixedArray := by
  have hreturns : Returns (fun fuel => search fuel 5 mixedArray) 0 := .of_add 7 fun _ => rfl
  refine ⟨fun b hb hb' i hi j hj => ?_, by decide, hreturns, ?_⟩
  · obtain ⟨hi, hi'⟩ := hi
    obtain ⟨hj, hj'⟩ := hj
    rw [mixedArray, Cells.cell_ofFun (by omega) (by omega), Cells.cell_ofFun (by omega) (by omega)]
    split_ifs <;> omega
  · rintro ⟨r, hreturns', hfound, -⟩
    obtain rfl := hreturns.unique hreturns'
    exact absurd (hfound ⟨3, by decide, by decide⟩).1.1 (by decide)

end Wgs.BlockSearch
