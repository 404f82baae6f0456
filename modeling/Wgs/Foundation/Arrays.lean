import Wgs.Foundation.Cells

/-!
Several arrays in one memory.

A program whose functions take arrays names them by their number; two names may be of one array.  An
array that a function declares is put at the end of the memory while the function runs.  Its cells
hold nothing at first, and to load a cell that holds nothing is a fault, as an access outside of an
array is.

`WritesIn a l r A A'` is the frame of a program: of all the arrays, only the cells of `a` from `l`
to `r` have changed.
-/

namespace Foundation

variable {α β : Type}

/-- The arrays of a program, with cells that may hold nothing. -/
abbrev Arrays (α : Type) := List (Cells (Option α))

namespace Arrays

/-! ### Accesses -/

/-- `a[i]` -/
def load (A : Arrays α) (a : ℕ) (i : ℤ) : Option α := do
  let c ← (← A[a]?).load i
  c

/-- `a[i] = v` -/
def store (A : Arrays α) (a : ℕ) (i : ℤ) (v : α) : Option (Arrays α) := do
  let s ← (← A[a]?).store i (some v)
  return A.set a s

/-- A function declares an array of this size. -/
def enter (A : Arrays α) (size : ℕ) : Arrays α := A ++ [List.replicate size none]

/-- The function is left. -/
def leave (A : Arrays α) : Arrays α := A.dropLast

/-- The cells of an array. -/
def array (A : Arrays α) (a : ℕ) : Cells (Option α) := A[a]?.getD []

/-- All cells of the array from `l` to `r` hold something. -/
def Filled (A : Arrays α) (a : ℕ) (l r : ℤ) : Prop := ∀ i ∈ Set.Icc l r, ((A.array a).cell i).isSome

/-- Only cells of `a` from `l` to `r` have changed. -/
structure WritesIn (a : ℕ) (l r : ℤ) (A A' : Arrays α) : Prop where
  length_eq : A'.length = A.length
  other : ∀ b, b ≠ a → A'.array b = A.array b
  size_eq : (A'.array a).length = (A.array a).length
  frame : ∀ i, i ∉ Set.Icc l r → (A'.array a).load i = (A.array a).load i

variable {A A' A'' : Arrays α} {a b : ℕ} {i l r l' r' : ℤ} {v : α}

lemma load_eq (h : (A.array a).cell i = some v) : A.load a i = some v := by
  rw [array, Cells.cell] at h
  rw [load]
  cases ha : A[a]? with
  | none =>
      rw [ha] at h
      simp [Cells.load] at h
  | some s =>
      rw [ha, Option.getD_some] at h
      cases hs : Cells.load s i with
      | none =>
          rw [hs] at h
          cases h
      | some c =>
          rw [hs, Option.getD_some] at h
          simp [hs, h]

/-- A store, as the rest of a proof sees it. -/
lemma store_spec (ha : a < A.length) (h₀ : 0 ≤ i) (h : i < (A.array a).length) (v : α) :
    ∃ A', A.store a i v = some A' ∧ WritesIn a i i A A'
      ∧ (A'.array a).cell = Function.update (A.array a).cell i (some v) := by
  have hget : A[a]? = some (A.array a) := by
    rw [array, List.getElem?_eq_getElem ha, Option.getD_some]
  obtain ⟨s, hs, hlen, hcell⟩ := Cells.store_spec h₀ h (some v)
  have hself : Arrays.array (A.set a s) a = s := by
    rw [array, List.getElem?_set_self ha, Option.getD_some]
  refine ⟨A.set a s, by simp [store, hget, hs], ⟨List.length_set, fun b hb => ?_, ?_, ?_⟩, ?_⟩
  · rw [array, array, List.getElem?_set_ne hb.symm]
  · rw [hself, hlen]
  · intro j hj
    rw [hself]
    refine Cells.load_eq_of_cell hlen ?_
    rw [hcell, Function.update_of_ne]
    rintro rfl
    exact hj ⟨le_rfl, le_rfl⟩
  · rw [hself, hcell]

/-- What a store that is no fault has done. -/
lemma store_writes (h : A.store a i v = some A') :
    0 ≤ i ∧ i < (A.array a).length ∧ WritesIn a i i A A' := by
  obtain ⟨s, hs, hs'⟩ := Option.bind_eq_some_iff.mp h
  obtain ⟨t, ht, -⟩ := Option.bind_eq_some_iff.mp hs'
  have harray : A.array a = s := by rw [array, hs, Option.getD_some]
  rw [Cells.store] at ht
  split_ifs at ht with hi
  rw [← harray] at hi
  have ha : a < A.length := (List.getElem?_eq_some_iff.mp hs).1
  obtain ⟨A'', hA'', hwrites, -⟩ := store_spec ha hi.1 hi.2 v
  rw [h] at hA''
  obtain rfl := Option.some_inj.mp hA''
  exact ⟨hi.1, hi.2, hwrites⟩

lemma lt_length_of_lt (h₀ : 0 ≤ i) (h : i < (A.array a).length) : a < A.length := by
  by_contra hnot
  rw [array, List.getElem?_eq_none (not_lt.mp hnot)] at h
  exact absurd h (by simpa using h₀)

lemma filled_iff (hl : 0 ≤ l) (hr : r < (A.array a).length) :
    A.Filled a l r ↔ ∀ c ∈ (A.array a).segment l r, c.isSome := by
  rw [Cells.segment_eq hl hr]
  simp only [List.mem_map, List.mem_range, forall_exists_index, and_imp, forall_apply_eq_imp_iff₂]
  constructor
  · intro h k hk
    exact h _ ⟨by omega, by omega⟩
  · rintro h i ⟨hli, hir⟩
    have hk := h (i - l).toNat (by omega)
    rwa [show l + ((i - l).toNat : ℤ) = i by omega] at hk

/-- What the cells hold, when they all hold something. -/
lemma exists_map_some {cs : List (Option α)} (h : ∀ c ∈ cs, c.isSome) :
    ∃ xs : List α, cs = xs.map some := by
  induction cs with
  | nil => exact ⟨[], rfl⟩
  | cons c cs ih =>
      obtain ⟨x, rfl⟩ := Option.isSome_iff_exists.mp (h c List.mem_cons_self)
      obtain ⟨xs, rfl⟩ := ih fun c hc => h c (List.mem_cons_of_mem _ hc)
      exact ⟨x :: xs, rfl⟩

lemma Filled.congr (h : A.Filled a l r) (harray : A'.array a = A.array a) (hl : l ≤ l')
    (hr : r' ≤ r) : A'.Filled a l' r' := by
  rintro i ⟨hi, hi'⟩
  rw [harray]
  exact h i ⟨by omega, by omega⟩

/-! ### The arrays of a function -/

lemma length_enter (size : ℕ) : (A.enter size).length = A.length + 1 := by
  rw [enter, List.length_append, List.length_singleton]

lemma array_enter (size : ℕ) (ha : a < A.length) : (A.enter size).array a = A.array a := by
  rw [enter, array, array, List.getElem?_append_left ha]

/-- The array that is declared. -/
lemma array_enter_self (size : ℕ) :
    (A.enter size).array A.length = List.replicate size none := by
  rw [enter, array, List.getElem?_append_right le_rfl, Nat.sub_self]
  rfl

lemma length_leave : A.leave.length = A.length - 1 := List.length_dropLast

lemma array_leave (ha : a + 1 < A.length) : A.leave.array a = A.array a := by
  rw [leave, array, array, List.getElem?_dropLast, if_pos (by omega)]

/-! ### Frames -/

namespace WritesIn

lemma refl (a : ℕ) (l r : ℤ) (A : Arrays α) : WritesIn a l r A A :=
  ⟨rfl, fun _ _ => rfl, rfl, fun _ _ => rfl⟩

lemma trans (h : WritesIn a l r A A') (h' : WritesIn a l r A' A'') : WritesIn a l r A A'' :=
  ⟨h'.length_eq.trans h.length_eq, fun b hb => (h'.other b hb).trans (h.other b hb),
    h'.size_eq.trans h.size_eq, fun i hi => (h'.frame i hi).trans (h.frame i hi)⟩

lemma mono (h : WritesIn a l r A A') (hl : l' ≤ l) (hr : r ≤ r') : WritesIn a l' r' A A' :=
  ⟨h.length_eq, h.other, h.size_eq, fun i hi =>
    h.frame i fun hmem => hi ⟨hl.trans hmem.1, hmem.2.trans hr⟩⟩

/-- No array changes its size. -/
lemma size (h : WritesIn a l r A A') (b : ℕ) : (A'.array b).length = (A.array b).length := by
  by_cases hb : b = a
  · rw [hb, h.size_eq]
  · rw [h.other b hb]

lemma cell_eq (h : WritesIn a l r A A') (hi : i ∉ Set.Icc l r) :
    (A'.array a).cell i = (A.array a).cell i := Cells.cell_eq_of_load (h.frame i hi)

/-- The segments in front of what is written and behind it. -/
lemma segment_eq (h : WritesIn a l r A A') (hl : 0 ≤ l') (hr : r' < (A.array a).length)
    (hout : r' < l ∨ r < l') : (A'.array a).segment l' r' = (A.array a).segment l' r' := by
  refine Cells.segment_congr hl hr h.size_eq fun k hk hk' => h.cell_eq fun hmem => ?_
  have hle := hmem.1
  have hle' := hmem.2
  omega

/-- What a function has done to the arrays that were there before it, when it has declared one. -/
lemma of_leave (hlen : A'.length = A.length + 1) (ha : a < A.length)
    (hother : ∀ b < A.length, b ≠ a → A'.array b = A.array b)
    (hsize : (A'.array a).length = (A.array a).length)
    (hframe : ∀ i, i ∉ Set.Icc l r → (A'.array a).load i = (A.array a).load i) :
    WritesIn a l r A A'.leave := by
  have hlt : ∀ b < A.length, A'.leave.array b = A'.array b :=
    fun b hb => array_leave (by omega)
  refine ⟨by rw [length_leave]; omega, fun b hb => ?_, ?_, fun i hi => ?_⟩
  · by_cases hb' : b < A.length
    · rw [hlt b hb', hother b hb' hb]
    · rw [array, array, List.getElem?_eq_none (by rw [length_leave]; omega),
        List.getElem?_eq_none (by omega)]
  · rw [hlt a ha, hsize]
  · rw [hlt a ha, hframe i hi]

end WritesIn

/-! ### Sizes -/

/-- The arrays have the sizes that they had. -/
structure SameSizes (A A' : Arrays α) : Prop where
  length_eq : A'.length = A.length
  size_eq : ∀ a, (A'.array a).length = (A.array a).length

namespace SameSizes

lemma refl (A : Arrays α) : SameSizes A A := ⟨rfl, fun _ => rfl⟩

lemma trans (h : SameSizes A A') (h' : SameSizes A' A'') : SameSizes A A'' :=
  ⟨h'.length_eq.trans h.length_eq, fun a => (h'.size_eq a).trans (h.size_eq a)⟩

lemma of_store (h : A.store a i v = some A') : SameSizes A A' := by
  obtain ⟨-, -, hwrites⟩ := store_writes h
  exact ⟨hwrites.length_eq, hwrites.size⟩

lemma leave {size : ℕ} (h : SameSizes (A.enter size) A') : SameSizes A A'.leave := by
  have hlen : A'.length = A.length + 1 := h.length_eq.trans (length_enter size)
  refine ⟨by rw [length_leave]; omega, fun a => ?_⟩
  by_cases ha : a < A.length
  · rw [array_leave (by omega), h.size_eq, array_enter size ha]
  · rw [array, array, List.getElem?_eq_none (by rw [length_leave]; omega),
      List.getElem?_eq_none (by omega)]

end SameSizes

end Arrays

end Foundation
