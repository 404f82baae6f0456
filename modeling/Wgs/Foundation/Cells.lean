import Wgs.Foundation.Loops

/-!
Arrays, and what is rearranged in them.

An array is the list of its cells; an access outside of them is a fault.  A proof reads an array as
the function `Cells.cell` of its indices, which a store updates at one place; `Ends.load` and
`Ends.store` run an access of a program.

`Rearranges S f f'` says that `f'` is `f` with the values at the places in `S` permuted: it is
closed under composition, and it leaves everything outside of `S` alone.  An algorithm that shifts
values past a hole keeps the array with the hole filled a rearrangement (`Rearranges.move_hole`).
`SortedIn` is the result of sorting a range, read off the lists.
-/

namespace Foundation

variable {α β : Type}

/-- An array. -/
abbrev Cells (α : Type) := List α

namespace Cells

/-! ### Accesses -/

/-- `s[i]` -/
def load (s : Cells α) (i : ℤ) : Option α := if i < 0 then none else s[i.toNat]?

/-- `s[i] = v` -/
def store (s : Cells α) (i : ℤ) (v : α) : Option (Cells α) :=
  if 0 ≤ i ∧ i < s.length then some (s.set i.toNat v) else none

/-- The array with these values in its cells from 0 to `n`. -/
def ofFun (f : ℤ → α) (n : ℤ) : Cells α := (List.range (n + 1).toNat).map fun k : ℕ => f k

/-- The array with the first `k` of these values put in front. -/
def fill (xs : List α) (s : Cells α) (k : ℕ) : Cells α := xs.take k ++ s.drop k

/-- The cells from `l` to `r`. -/
def segment (s : Cells α) (l r : ℤ) : List α := (s.drop l.toNat).take (r + 1 - l).toNat

section Access

variable {s s' : Cells α} {xs : List α} {i l r : ℤ} {k : ℕ} {v : α}

lemma length_ofFun {f : ℤ → α} {n : ℤ} (hn : 0 ≤ n) : ((ofFun f n).length : ℤ) = n + 1 := by
  rw [ofFun, List.length_map, List.length_range]
  omega

/-- An index that is a natural number. -/
lemma load_natCast (s : Cells α) (n : ℕ) : s.load n = s[n]? := by
  rw [load, if_neg (by omega), Int.toNat_natCast]

lemma store_natCast {n : ℕ} (h : n < s.length) (v : α) : s.store n v = some (s.set n v) := by
  rw [store, if_pos ⟨by omega, by omega⟩, Int.toNat_natCast]

lemma load_eq_none (h : ¬ (0 ≤ i ∧ i < s.length)) : s.load i = none := by
  rw [load]
  split_ifs with hneg
  · rfl
  · exact List.getElem?_eq_none (by omega)

lemma lt_of_load (h : s.load i = some v) : 0 ≤ i ∧ i < s.length := by
  by_contra hout
  rw [load_eq_none hout] at h
  cases h

lemma length_of_store (h : s.store i v = some s') : s'.length = s.length := by
  rw [store] at h
  split_ifs at h
  rw [← Option.some_inj.mp h, List.length_set]

lemma segment_of_lt (h : r < l) : s.segment l r = [] := by
  have hzero : (r + 1 - l).toNat = 0 := by omega
  rw [segment, hzero, List.take_zero]

lemma length_segment (hl : 0 ≤ l) (hr : r < s.length) :
    (s.segment l r).length = (r + 1 - l).toNat := by
  rw [segment, List.length_take, List.length_drop]
  omega

lemma segment_append {m : ℤ} (hl : 0 ≤ l) (hlm : l ≤ m + 1) (hmr : m ≤ r) :
    s.segment l m ++ s.segment (m + 1) r = s.segment l r := by
  have hdrop : (m + 1).toNat = l.toNat + (m + 1 - l).toNat := by omega
  have htake : (r + 1 - l).toNat = (m + 1 - l).toNat + (r + 1 - (m + 1)).toNat := by omega
  rw [segment, segment, segment, hdrop, htake, ← List.drop_drop, ← List.take_add]

lemma load_map (g : α → β) (s : Cells α) (i : ℤ) : load (s.map g) i = (s.load i).map g := by
  rw [load, load, List.getElem?_map]
  split_ifs <;> rfl

lemma segment_map (g : α → β) (s : Cells α) (l r : ℤ) :
    segment (s.map g) l r = (s.segment l r).map g := by
  rw [segment, segment, List.map_take, List.map_drop]

lemma length_fill (hk : k ≤ xs.length) (hxs : xs.length ≤ s.length) :
    (fill xs s k).length = s.length := by
  rw [fill, List.length_append, List.length_take, List.length_drop]
  omega

/-- The next value is put in. -/
lemma store_fill (hk : k < xs.length) (hxs : xs.length ≤ s.length) :
    store (fill xs s k) k xs[k] = some (fill xs s (k + 1)) := by
  have hlen := length_fill hk.le hxs
  rw [store, if_pos ⟨by omega, by omega⟩, Int.toNat_natCast, fill, fill]
  congr 1
  refine List.ext_getElem? fun m => ?_
  rw [List.getElem?_set]
  grind

/-- The next value is there already. -/
lemma fill_succ_eq_fill (hk : k < xs.length) (h : s[k]? = some xs[k]) :
    fill xs s (k + 1) = fill xs s k := by
  obtain ⟨hlt, hget⟩ := List.getElem?_eq_some_iff.mp h
  rw [fill, fill, List.take_succ_eq_append_getElem hk, List.append_assoc, List.singleton_append,
    ← hget, ← List.drop_eq_getElem_cons hlt]

/-- Behind the values that are put in, nothing changes. -/
lemma load_fill_of_le (hi : k ≤ i) (hk : k ≤ xs.length) : (fill xs s k).load i = s.load i := by
  have hlen : (xs.take k).length = k := List.length_take_of_le hk
  rw [load, load, if_neg (by omega), if_neg (by omega), fill,
    List.getElem?_append_right (by omega), hlen, List.getElem?_drop]
  congr 1
  omega

lemma load_fill_of_lt {i : ℕ} (hi : i < k) (hk : k ≤ xs.length) :
    (fill xs s k).load i = xs[i]? := by
  rw [load, if_neg (by omega), Int.toNat_natCast, fill,
    List.getElem?_append_left (by rw [List.length_take]; omega), List.getElem?_take_of_lt hi]

variable [Inhabited α]

/-- What the cells hold, with some value outside of the array. -/
def cell (s : Cells α) (i : ℤ) : α := (s.load i).getD default

/-- The first cell gets what it holds. -/
lemma fill_one (h : 0 < s.length) (xs : List α) : fill (s.cell 0 :: xs) s 1 = s := by
  obtain ⟨x, s, rfl⟩ := List.exists_cons_of_length_pos h
  rfl

lemma load_eq (h₀ : 0 ≤ i) (h : i < s.length) : s.load i = some (s.cell i) := by
  have hi : i.toNat < s.length := by omega
  rw [cell, load, if_neg (by omega), List.getElem?_eq_getElem hi]
  rfl

/-- A store, as the rest of a proof sees it. -/
lemma store_spec (h₀ : 0 ≤ i) (h : i < s.length) (v : α) :
    ∃ s', s.store i v = some s' ∧ s'.length = s.length
      ∧ s'.cell = Function.update s.cell i v := by
  refine ⟨_, if_pos ⟨h₀, h⟩, List.length_set, ?_⟩
  funext j
  rcases eq_or_ne j i with rfl | hne
  · rw [Function.update_self, cell, load, if_neg (by omega), List.getElem?_set_self (by omega)]
    rfl
  · rw [Function.update_of_ne hne, cell, cell, load, load]
    by_cases hj : j < 0
    · rw [if_pos hj, if_pos hj]
    · rw [if_neg hj, if_neg hj, List.getElem?_set_ne (by omega)]

lemma cell_eq_of_load (h : s'.load i = s.load i) : s'.cell i = s.cell i := by
  rw [cell, cell, h]

lemma load_eq_of_cell (hlen : s'.length = s.length) (h : s'.cell i = s.cell i) :
    s'.load i = s.load i := by
  by_cases hi : 0 ≤ i ∧ i < s.length
  · rw [load_eq hi.1 hi.2, load_eq hi.1 (hlen ▸ hi.2), h]
  · rw [load_eq_none hi, load_eq_none (hlen ▸ hi)]

lemma segment_eq (hl : 0 ≤ l) (hr : r < s.length) :
    s.segment l r = (List.range (r + 1 - l).toNat).map fun k : ℕ => s.cell (l + k) := by
  refine List.ext_getElem? fun k => ?_
  rw [segment, List.getElem?_take, List.getElem?_map]
  split_ifs with hk
  · have hload := load_eq (s := s) (i := l + k) (by omega) (by omega)
    rw [load, if_neg (by omega)] at hload
    rw [List.getElem?_drop, List.getElem?_range hk, Option.map_some, ← hload]
    congr 1
    omega
  · rw [List.getElem?_eq_none (by simpa using hk)]
    rfl

lemma segment_self (h₀ : 0 ≤ i) (h : i < s.length) : s.segment i i = [s.cell i] := by
  have hlen : (i + 1 - i).toNat = 1 := by omega
  rw [segment_eq h₀ h, hlen]
  simp

lemma segment_cons (hl : 0 ≤ l) (hlr : l ≤ r) (hr : r < s.length) :
    s.segment l r = s.cell l :: s.segment (l + 1) r := by
  rw [← segment_append hl (by omega) hlr, segment_self hl (by omega), List.singleton_append]

/-- The order of a segment, in terms of the places. -/
lemma pairwise_segment_iff {P : α → α → Prop} (hl : 0 ≤ l) (hr : r < s.length) :
    (s.segment l r).Pairwise P ↔ ∀ i j, l ≤ i → i < j → j ≤ r → P (s.cell i) (s.cell j) := by
  rw [segment_eq hl hr, List.pairwise_map]
  constructor
  · intro h i j hi hij hj
    have hpair := List.pairwise_iff_getElem.mp h (i - l).toNat (j - l).toNat
      (by rw [List.length_range]; omega) (by rw [List.length_range]; omega) (by omega)
    rw [List.getElem_range, List.getElem_range] at hpair
    rwa [show l + ((i - l).toNat : ℤ) = i by omega,
      show l + ((j - l).toNat : ℤ) = j by omega] at hpair
  · intro h
    refine List.pairwise_lt_range.imp_of_mem fun {k k'} _ hk' hlt => ?_
    rw [List.mem_range] at hk'
    exact h _ _ (by omega) (by omega) (by omega)

lemma segment_congr (hl : 0 ≤ l) (hr : r < s.length) (hlen : s'.length = s.length)
    (h : ∀ k, l ≤ k → k ≤ r → s'.cell k = s.cell k) : s'.segment l r = s.segment l r := by
  rw [segment_eq hl (hlen ▸ hr), segment_eq hl hr]
  refine List.map_congr_left fun k hk => h _ (by omega) ?_
  rw [List.mem_range] at hk
  omega

lemma cell_ofFun {f : ℤ → α} {n : ℤ} (h₀ : 0 ≤ i) (h : i ≤ n) : (ofFun f n).cell i = f i := by
  have hlt : i.toNat < (n + 1).toNat := by omega
  rw [cell, load, if_neg (by omega), ofFun, List.getElem?_map, List.getElem?_range hlt,
    Option.map_some, Option.getD_some, Int.toNat_of_nonneg h₀]

lemma cell_natCast (hk : k < xs.length) : cell xs k = xs[k] := by
  rw [cell, load, if_neg (by omega), Int.toNat_natCast, List.getElem?_eq_getElem hk,
    Option.getD_some]

lemma cell_cons (h : 1 ≤ i) : cell (v :: xs) i = cell xs (i - 1) := by
  have hsucc : i.toNat = (i - 1).toNat + 1 := by omega
  rw [cell, cell, load, load, if_neg (by omega), if_neg (by omega), hsucc,
    List.getElem?_cons_succ]

lemma cell_fill_of_lt (h₀ : 0 ≤ i) (hi : i < k) (hk : k ≤ xs.length) :
    (fill xs s k).cell i = cell xs i := by
  refine cell_eq_of_load ?_
  rw [load, load, if_neg (by omega), if_neg (by omega), fill,
    List.getElem?_append_left (by rw [List.length_take]; omega),
    List.getElem?_take_of_lt (by omega)]

/-- One more value, as an update. -/
lemma cell_fill_succ (hk : k < xs.length) (hxs : xs.length ≤ s.length) :
    (fill xs s (k + 1)).cell = Function.update (fill xs s k).cell k (cell xs k) := by
  obtain ⟨s', hs', -, hupdate⟩ := store_spec (s := fill xs s k) (i := k) (by omega)
    (by rw [length_fill hk.le hxs]; omega) xs[k]
  rw [store_fill hk hxs] at hs'
  rw [Option.some_inj.mp hs', hupdate, cell_natCast hk]

/-- A value is stored behind the end of a segment. -/
lemma segment_store (hl : 0 ≤ l) (hlr : l ≤ r) (hr : r < s.length) (hlen : s'.length = s.length)
    (h : s'.cell = Function.update s.cell r v) : s'.segment l r = s.segment l (r - 1) ++ [v] := by
  have hlast : s'.segment r r = [v] := by
    rw [segment_cons (by omega) le_rfl (hlen ▸ hr), segment_of_lt (by omega), h,
      Function.update_self]
  have hinit : s'.segment l (r - 1) = s.segment l (r - 1) :=
    segment_congr hl (by omega) hlen fun k _ hk => by rw [h, Function.update_of_ne (by omega)]
  have happend := segment_append (s := s') (m := r - 1) (r := r) hl (by omega) (by omega)
  rw [sub_add_cancel, hlast, hinit] at happend
  exact happend.symm

end Access

end Cells

section Access

variable [Inhabited α] {s : Cells α} {i : ℤ} {v : α} {R : β → Prop}

lemma Ends.load {g : ℕ → α → Option β} (h₀ : 0 ≤ i) (h : i < s.length)
    (hg : Ends (fun fuel => g fuel (s.cell i)) R) : Ends (fun fuel => s.load i >>= g fuel) R := by
  rw [Cells.load_eq h₀ h]
  exact hg

lemma Ends.store {g : ℕ → Cells α → Option β} (h₀ : 0 ≤ i) (h : i < s.length)
    (hg : ∀ s' : Cells α, s'.length = s.length → s'.cell = Function.update s.cell i v →
      Ends (fun fuel => g fuel s') R) : Ends (fun fuel => s.store i v >>= g fuel) R := by
  obtain ⟨s', hs', hlen, hcell⟩ := Cells.store_spec h₀ h v
  rw [hs']
  exact hg s' hlen hcell

end Access

/-! ### Exchanges -/

section Exchanges

variable {ι : Type*} [DecidableEq ι] {g : ι → α} {i j : ι} {v : α}

/-- Two values are exchanged by two stores. -/
lemma update_eq_swap (g : ι → α) (i j : ι) :
    Function.update (Function.update g i (g j)) j (g i) = g ∘ Equiv.swap i j := by
  rw [Equiv.swap_comm, Equiv.comp_swap_eq_update]

/-- The value at `j` is put into the hole at `i`, with `v` in the hole. -/
lemma update_hole_eq_swap (hij : i ≠ j) : Function.update (Function.update g i (g j)) j v
    = Function.update g i v ∘ Equiv.swap i j := by
  rw [← update_eq_swap, Function.update_idem, Function.update_of_ne hij.symm, Function.update_self]

end Exchanges

/-! ### Rearrangements -/

/-- `f'` is `f` with the values at the places in `S` permuted. -/
def Rearranges {ι : Type*} (S : Set ι) (f f' : ι → α) : Prop :=
  ∃ σ : Equiv.Perm ι, (∀ i, i ∉ S → σ i = i) ∧ f' = f ∘ σ

namespace Rearranges

variable {ι : Type*} {S T : Set ι} {f f' f'' g : ι → α} {i j : ι} {v : α}

lemma refl (S : Set ι) (f : ι → α) : Rearranges S f f := ⟨Equiv.refl ι, fun _ _ => rfl, rfl⟩

lemma trans (h : Rearranges S f f') (h' : Rearranges S f' f'') : Rearranges S f f'' := by
  obtain ⟨σ, hσ, rfl⟩ := h
  obtain ⟨τ, hτ, rfl⟩ := h'
  refine ⟨τ.trans σ, fun i hi => ?_, rfl⟩
  rw [Equiv.trans_apply, hτ i hi, hσ i hi]

lemma symm (h : Rearranges S f f') : Rearranges S f' f := by
  obtain ⟨σ, hσ, rfl⟩ := h
  refine ⟨σ.symm, fun i hi => ?_, ?_⟩
  · rw [Equiv.symm_apply_eq, hσ i hi]
  · rw [Function.comp_assoc, Equiv.self_comp_symm, Function.comp_id]

lemma mono (h : Rearranges S f f') (hST : S ⊆ T) : Rearranges T f f' := by
  obtain ⟨σ, hσ, rfl⟩ := h
  exact ⟨σ, fun i hi => hσ i fun hS => hi (hST hS), rfl⟩

/-- Nothing changes outside. -/
lemma eq_of_notMem (h : Rearranges S f f') (hi : i ∉ S) : f' i = f i := by
  obtain ⟨σ, hσ, rfl⟩ := h
  rw [Function.comp_apply, hσ i hi]

/-- The values come from the same places. -/
lemma exists_mem (h : Rearranges S f f') (hi : i ∈ S) : ∃ j ∈ S, f' i = f j := by
  obtain ⟨σ, hσ, rfl⟩ := h
  refine ⟨σ i, ?_, rfl⟩
  by_contra hmem
  have hfix : σ i = i := σ.injective (hσ (σ i) hmem)
  rw [hfix] at hmem
  exact hmem hi

/-- What holds of all the values at places of `S` still does. -/
lemma forall_mem {P : α → Prop} (h : Rearranges S f f') (hf : ∀ j ∈ S, P (f j)) :
    ∀ i ∈ S, P (f' i) := by
  intro i hi
  obtain ⟨j, hj, heq⟩ := h.exists_mem hi
  rw [heq]
  exact hf j hj

variable [DecidableEq ι]

lemma swap (f : ι → α) (hi : i ∈ S) (hj : j ∈ S) : Rearranges S f (f ∘ Equiv.swap i j) := by
  refine ⟨Equiv.swap i j, fun k hk => Equiv.swap_apply_of_ne_of_ne ?_ ?_, rfl⟩
  · rintro rfl
    exact hk hi
  · rintro rfl
    exact hk hj

/-- A value elsewhere is set on both sides. -/
lemma update (h : Rearranges S f f') (hi : i ∉ S) (v : α) :
    Rearranges S (Function.update f i v) (Function.update f' i v) := by
  obtain ⟨σ, hσ, rfl⟩ := h
  refine ⟨σ, hσ, ?_⟩
  funext k
  have hσi := hσ i hi
  rw [Function.comp_apply, Function.update_apply, Function.update_apply]
  by_cases hk : k = i
  · rw [hk, hσi, if_pos rfl, if_pos rfl]
  · have hne : σ k ≠ i := fun heq => hk (σ.injective (heq.trans hσi.symm))
    rw [if_neg hk, if_neg hne, Function.comp_apply]

/-- **The hole moves**: the value at `j` is put into the hole at `i`, which leaves one at `j`. -/
lemma move_hole (h : Rearranges S f (Function.update g i v)) (hi : i ∈ S) (hj : j ∈ S)
    (hij : i ≠ j) : Rearranges S f (Function.update (Function.update g i (g j)) j v) := by
  rw [update_hole_eq_swap hij]
  exact h.trans (swap _ hi hj)

end Rearranges

/-- `f'` is `f` with any value at `x` and, then, the values at the places in `S` permuted. -/
def RearrangesPast {ι : Type} [DecidableEq ι] (x : ι) (S : Set ι) (f f' : ι → α) : Prop :=
  ∃ v, Rearranges S (Function.update f x v) f'

namespace RearrangesPast

variable {ι : Type} [DecidableEq ι] {S T : Set ι} {f f' f'' : ι → α} {i x : ι}

lemma refl (x : ι) (S : Set ι) (f : ι → α) : RearrangesPast x S f f :=
  ⟨f x, by rw [Function.update_eq_self]; exact .refl S f⟩

lemma trans (hx : x ∉ S) (h : RearrangesPast x S f f') (h' : RearrangesPast x S f' f'') :
    RearrangesPast x S f f'' := by
  obtain ⟨v, h⟩ := h
  obtain ⟨v', h'⟩ := h'
  have hv' := h.update hx v'
  rw [Function.update_idem] at hv'
  exact ⟨v', hv'.trans h'⟩

lemma mono (h : RearrangesPast x S f f') (hST : S ⊆ T) : RearrangesPast x T f f' := by
  obtain ⟨v, h⟩ := h
  exact ⟨v, h.mono hST⟩

lemma eq_of_notMem (h : RearrangesPast x S f f') (hi : i ∉ S) (hix : i ≠ x) : f' i = f i := by
  obtain ⟨v, h⟩ := h
  rw [h.eq_of_notMem hi, Function.update_of_ne hix]

lemma forall_mem {P : α → Prop} (hx : x ∉ S) (h : RearrangesPast x S f f')
    (hf : ∀ j ∈ S, P (f j)) : ∀ i ∈ S, P (f' i) := by
  obtain ⟨v, h⟩ := h
  refine h.forall_mem fun j hj => ?_
  have hne : j ≠ x := fun heq => hx (heq ▸ hj)
  rw [Function.update_of_ne hne]
  exact hf j hj

end RearrangesPast

/-! ### Sorted ranges -/

/-- The values at the places from `l` to `r` ascend. -/
def AscendsOn (f : ℤ → ℤ) (l r : ℤ) : Prop := ∀ i j, l ≤ i → i ≤ j → j ≤ r → f i ≤ f j

lemma AscendsOn.of_lt {f : ℤ → ℤ} {l r : ℤ} (h : r < l) : AscendsOn f l r :=
  fun i j hi hij hj => by omega

lemma AscendsOn.congr {f g : ℤ → ℤ} {l r : ℤ} (h : AscendsOn f l r)
    (hg : ∀ i ∈ Set.Icc l r, g i = f i) : AscendsOn g l r := by
  intro i j hi hij hj
  rw [hg i ⟨hi, by omega⟩, hg j ⟨by omega, hj⟩]
  exact h i j hi hij hj

/-- Two ascending ranges and the value between them. -/
lemma AscendsOn.join {f : ℤ → ℤ} {l m r : ℤ} (hleft : AscendsOn f l (m - 1))
    (hright : AscendsOn f (m + 1) r) (hlow : ∀ k ∈ Set.Icc l (m - 1), f k ≤ f m)
    (hhigh : ∀ k ∈ Set.Icc (m + 1) r, f m ≤ f k) : AscendsOn f l r := by
  intro i j hi hij hj
  rcases lt_trichotomy j m with hjm | rfl | hjm
  · exact hleft i j hi hij (by omega)
  · rcases hij.lt_or_eq with hlt | rfl
    · exact hlow i ⟨hi, by omega⟩
    · exact le_rfl
  · have hj' := hhigh j ⟨by omega, hj⟩
    rcases lt_trichotomy i m with him | rfl | him
    · exact (hlow i ⟨hi, by omega⟩).trans hj'
    · exact hj'
    · exact hright i j (by omega) hij hj

/-- `s'` is `s` with the cells from `l` to `r` in ascending order; of the others, only those in
`scratch` may have changed. -/
structure SortedIn (scratch : Set ℤ) (l r : ℤ) (s s' : Cells ℤ) : Prop where
  length_eq : s'.length = s.length
  perm : (s'.segment l r).Perm (s.segment l r)
  ascending : (s'.segment l r).Pairwise (· ≤ ·)
  frame : ∀ i, i ∉ scratch → i ∉ Set.Icc l r → s'.load i = s.load i

section SortedIn

variable {l r : ℤ}

/-- The values of a range, rearranged, are a permutation of the list. -/
lemma Rearranges.perm_map {f f' : ℤ → α} (h : Rearranges (Set.Icc l r) f f') :
    ((List.range (r + 1 - l).toNat).map fun k : ℕ => f' (l + k)).Perm
      ((List.range (r + 1 - l).toNat).map fun k : ℕ => f (l + k)) := by
  obtain ⟨σ, hσ, rfl⟩ := h
  set places := (List.range (r + 1 - l).toNat).map fun k : ℕ => l + k with hplaces
  have hmem : ∀ i, i ∈ places ↔ i ∈ Set.Icc l r := by
    intro i
    simp only [hplaces, List.mem_map, List.mem_range, Set.mem_Icc]
    constructor
    · rintro ⟨k, hk, rfl⟩
      omega
    · intro hi
      exact ⟨(i - l).toNat, by omega, by omega⟩
  have hnodup : places.Nodup := by
    refine List.Nodup.map (fun k k' heq => ?_) List.nodup_range
    simpa using heq
  have hperm : (places.map σ).Perm places := by
    refine (List.perm_ext_iff_of_nodup (hnodup.map σ.injective) hnodup).mpr fun i => ?_
    rw [List.mem_map, hmem]
    constructor
    · rintro ⟨k, hk, rfl⟩
      by_contra hout
      have hfix : σ k = k := σ.injective (hσ (σ k) hout)
      rw [hfix] at hout
      exact hout ((hmem k).mp hk)
    · intro hi
      refine ⟨σ.symm i, (hmem _).mpr ?_, σ.apply_symm_apply i⟩
      by_contra hout
      have hfix := hσ _ hout
      rw [σ.apply_symm_apply] at hfix
      rw [← hfix] at hout
      exact hout hi
  have hmap := hperm.map f
  rwa [hplaces, List.map_map, List.map_map, List.map_map] at hmap

/-- **What a sorting program leaves**: the range rearranged, in ascending order.  Cells in `scratch`
may have got any values before. -/
lemma SortedIn.of_rearranges {scratch : Set ℤ} {s s' : Cells ℤ} {f : ℤ → ℤ} (hl : 0 ≤ l)
    (hr : r < s.length) (hlen : s'.length = s.length) (hf : ∀ i, i ∉ scratch → f i = s.cell i)
    (hscratch : ∀ i ∈ scratch, i ∉ Set.Icc l r) (h : Rearranges (Set.Icc l r) f s'.cell)
    (hasc : AscendsOn s'.cell l r) : SortedIn scratch l r s s' where
  length_eq := hlen
  perm := by
    have hsame : ((List.range (r + 1 - l).toNat).map fun k : ℕ => s.cell (l + k))
        = (List.range (r + 1 - l).toNat).map fun k : ℕ => f (l + k) := by
      refine List.map_congr_left fun k hk => (hf _ fun hmem => hscratch _ hmem ?_).symm
      rw [List.mem_range] at hk
      exact ⟨by omega, by omega⟩
    rw [Cells.segment_eq hl hr, Cells.segment_eq hl (hlen ▸ hr), hsame]
    exact h.perm_map
  ascending := by
    rw [Cells.pairwise_segment_iff hl (hlen ▸ hr)]
    exact fun i j hi hij hj => hasc i j hi hij.le hj
  frame := by
    intro i hi hout
    exact Cells.load_eq_of_cell hlen ((h.eq_of_notMem hout).trans (hf i hi))

/-- The same where only one cell outside of the range may have got any value. -/
lemma SortedIn.of_rearrangesPast {s s' : Cells ℤ} {x : ℤ} (hl : 0 ≤ l) (hr : r < s.length)
    (hx : x ∉ Set.Icc l r) (hlen : s'.length = s.length)
    (h : RearrangesPast x (Set.Icc l r) s.cell s'.cell) (hasc : AscendsOn s'.cell l r) :
    SortedIn {x} l r s s' := by
  obtain ⟨v, h⟩ := h
  refine .of_rearranges hl hr hlen (fun i hi => Function.update_of_ne hi _ _) (fun i hi => ?_) h
    hasc
  rw [Set.mem_singleton_iff.mp hi]
  exact hx

/-- The values that a sorting leaves are determined. -/
lemma SortedIn.segment_unique {scratch scratch' : Set ℤ} {s s' s'' : Cells ℤ}
    (h : SortedIn scratch l r s s') (h' : SortedIn scratch' l r s s'') :
    s'.segment l r = s''.segment l r :=
  List.Perm.eq_of_pairwise (fun _ _ _ _ => le_antisymm) h.ascending h'.ascending
    (h.perm.trans h'.perm.symm)

end SortedIn

end Foundation
