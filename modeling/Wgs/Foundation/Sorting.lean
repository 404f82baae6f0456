import Mathlib.Data.List.Sort
import Mathlib.Tactic

/-!
Sorting by a three-way comparison, as the standard of C specifies it.

A comparison that orders the elements of an array makes `qsort` permute the array into that order
and leaves open in which order elements that compare equal come.  `IsQsort` is that contract, and
`tieSort pick` keeps it while it puts elements with `pick` before others they are equal to: what
holds for every `qsort` must hold whichever elements are picked.

In an ordered array the elements with one key lie together (`Contiguous`) when equality under the
comparison is equality of keys.
-/

namespace Foundation

variable {α K : Type*}

/-- The signs of `cmp` are a total ordering of the elements of `l`. -/
structure ConsistentOn (cmp : α → α → ℤ) (l : List α) : Prop where
  antisymm : ∀ x ∈ l, ∀ y ∈ l, (cmp x y ≤ 0 ↔ 0 ≤ cmp y x)
  trans : ∀ x ∈ l, ∀ y ∈ l, ∀ z ∈ l, cmp x y ≤ 0 → cmp y z ≤ 0 → cmp x z ≤ 0

/-- What a sorting function promises: for a comparison that orders the array, a permutation of
the array in that order. -/
structure IsQsort (qsort : (α → α → ℤ) → List α → List α) : Prop where
  perm : ∀ {cmp l}, ConsistentOn cmp l → (qsort cmp l).Perm l
  ordered : ∀ {cmp l}, ConsistentOn cmp l → (qsort cmp l).Pairwise fun x y => cmp x y ≤ 0

section Comparison

variable {cmp : α → α → ℤ} {l : List α} {x y z : α}

lemma ConsistentOn.eq_zero_symm (h : ConsistentOn cmp l) (hx : x ∈ l) (hy : y ∈ l)
    (hxy : cmp x y = 0) : cmp y x = 0 := by
  have h₁ := (h.antisymm x hx y hy).mp hxy.le
  have h₂ := (h.antisymm y hy x hx).mpr hxy.ge
  omega

/-! ### A sorting function for every choice among equals -/

/-- `x` may stand before `y`: it is less, or equal and picked if `y` is. -/
def TieLe (pick : α → Prop) (cmp : α → α → ℤ) (x y : α) : Prop :=
  cmp x y < 0 ∨ cmp x y = 0 ∧ (pick y → pick x)

instance (pick : α → Prop) [DecidablePred pick] (cmp : α → α → ℤ) :
    DecidableRel (TieLe pick cmp) :=
  fun x y => inferInstanceAs (Decidable (cmp x y < 0 ∨ cmp x y = 0 ∧ (pick y → pick x)))

/-- Sorts by `cmp`, picked elements before the others that they are equal to. -/
def tieSort (pick : α → Prop) [DecidablePred pick] (cmp : α → α → ℤ) (l : List α) : List α :=
  (l.attach.insertionSort fun (x y : {x // x ∈ l}) => TieLe pick cmp x y).map Subtype.val

variable {pick : α → Prop}

lemma ConsistentOn.tieLe_total (h : ConsistentOn cmp l) (hx : x ∈ l) (hy : y ∈ l) :
    TieLe pick cmp x y ∨ TieLe pick cmp y x := by
  have h₁ := h.antisymm x hx y hy
  have h₂ := h.antisymm y hy x hx
  rcases lt_trichotomy (cmp x y) 0 with hlt | heq | hgt
  · exact Or.inl (Or.inl hlt)
  · have heq' := h.eq_zero_symm hx hy heq
    by_cases hp : pick x
    · exact Or.inl (Or.inr ⟨heq, fun _ => hp⟩)
    · exact Or.inr (Or.inr ⟨heq', fun hp' => absurd hp' hp⟩)
  · refine Or.inr (Or.inl ?_)
    omega

lemma ConsistentOn.tieLe_trans (h : ConsistentOn cmp l) (hx : x ∈ l) (hy : y ∈ l) (hz : z ∈ l)
    (hxy : TieLe pick cmp x y) (hyz : TieLe pick cmp y z) : TieLe pick cmp x z := by
  have hle := h.trans x hx y hy z hz (by rcases hxy with h | h <;> omega)
    (by rcases hyz with h | h <;> omega)
  rcases hle.lt_or_eq with hlt | heq
  · exact Or.inl hlt
  -- `x` and `z` are equal, so `y` is equal to both
  · have hzx := (h.eq_zero_symm hx hz heq).le
    have hyx := h.trans y hy z hz x hx (by rcases hyz with h | h <;> omega) hzx
    have hzy := h.trans z hz x hx y hy hzx (by rcases hxy with h | h <;> omega)
    have hxy' := (h.antisymm y hy x hx).mp hyx
    have hyz' := (h.antisymm z hz y hy).mp hzy
    refine Or.inr ⟨heq, fun hp => ?_⟩
    rcases hxy with hxy | ⟨-, hxy⟩
    · omega
    · rcases hyz with hyz | ⟨-, hyz⟩
      · omega
      · exact hxy (hyz hp)

lemma ConsistentOn.pairwise_tieSort [DecidablePred pick] (h : ConsistentOn cmp l) :
    (tieSort pick cmp l).Pairwise (TieLe pick cmp) := by
  have htotal : Std.Total fun x y : {x // x ∈ l} => TieLe pick cmp x y :=
    ⟨fun x y => h.tieLe_total x.2 y.2⟩
  have htrans : IsTrans {x // x ∈ l} fun x y => TieLe pick cmp x y :=
    ⟨fun x y z => h.tieLe_trans x.2 y.2 z.2⟩
  rw [tieSort, List.pairwise_map]
  exact List.pairwise_insertionSort _ _

lemma perm_tieSort [DecidablePred pick] : (tieSort pick cmp l).Perm l := by
  have hperm := (List.perm_insertionSort (fun x y : {x // x ∈ l} => TieLe pick cmp x y)
    l.attach).map Subtype.val
  rwa [List.attach_map_subtype_val] at hperm

/-- **Whichever elements are picked, that is a sorting function.** -/
lemma isQsort_tieSort (pick : α → Prop) [DecidablePred pick] : IsQsort (tieSort pick) where
  perm _ := perm_tieSort
  ordered h := h.pairwise_tieSort.imp fun hxy => by rcases hxy with h | h <;> omega

/-- The first element with `p` is before the others in an ordered list. -/
lemma rel_of_find? {R : α → α → Prop} {p : α → Bool} (hsorted : l.Pairwise R)
    (hfind : l.find? p = some x) (hy : y ∈ l) (hpy : p y) : y = x ∨ R x y := by
  obtain ⟨-, as, bs, rfl, has⟩ := List.find?_eq_some_iff_append.mp hfind
  rcases List.mem_append.mp hy with hy | hy
  · exact absurd hpy (by simpa using has y hy)
  · rcases List.mem_cons.mp hy with rfl | hy
    · exact Or.inl rfl
    · exact Or.inr ((List.pairwise_cons.mp (List.pairwise_append.mp hsorted).2.1).1 y hy)

/-! ### Equal keys lie together -/

/-- Elements with one key follow one another. -/
def Contiguous (key : α → K) : List α → Prop
  | [] => True
  | x :: xs => (key x ∈ xs.map key → xs.head?.map key = some (key x)) ∧ Contiguous key xs

/-- A neighbour of the same key may be put for the first two elements. -/
lemma Contiguous.replace_head {key : α → K} {a : α} (h : Contiguous key (x :: y :: l))
    (heq : key y = key x) (ha : key a = key x) : Contiguous key (a :: l) := by
  refine ⟨fun hmem => ?_, h.2.2⟩
  rw [ha, ← heq] at hmem ⊢
  exact h.2.1 hmem

lemma Contiguous.not_mem_of_ne {key : α → K} (h : Contiguous key (x :: y :: l))
    (hne : key y ≠ key x) : key x ∉ (y :: l).map key := by
  intro hmem
  have hhead := h.1 hmem
  rw [List.head?_cons, Option.map_some, Option.some.injEq] at hhead
  exact hne hhead

/-- An array that is in order has equal keys together. -/
lemma ConsistentOn.contiguous {key : α → K} (h : ConsistentOn cmp l)
    (hkey : ∀ x ∈ l, ∀ y ∈ l, (cmp x y = 0 ↔ key x = key y))
    (hsorted : l.Pairwise fun x y => cmp x y ≤ 0) : Contiguous key l := by
  induction l with
  | nil => trivial
  | cons x xs ih =>
      obtain ⟨hfirst, hrest⟩ := List.pairwise_cons.mp hsorted
      have hcons : ConsistentOn cmp xs :=
        ⟨fun a ha b hb => h.antisymm a (.tail _ ha) b (.tail _ hb),
          fun a ha b hb c hc => h.trans a (.tail _ ha) b (.tail _ hb) c (.tail _ hc)⟩
      refine ⟨fun hmem => ?_, ih hcons (fun a ha b hb => hkey a (.tail _ ha) b (.tail _ hb)) hrest⟩
      obtain ⟨z, hz, hzkey⟩ := List.mem_map.mp hmem
      cases xs with
      | nil => exact absurd hz List.not_mem_nil
      | cons y ys =>
          have hx : x ∈ x :: y :: ys := List.mem_cons_self
          have hy : y ∈ x :: y :: ys := List.mem_cons_of_mem _ List.mem_cons_self
          have hz' : z ∈ x :: y :: ys := List.mem_cons_of_mem _ hz
          have hzx : cmp z x = 0 := (hkey z hz' x hx).mpr hzkey
          have hyz : cmp y z ≤ 0 := by
            rcases List.mem_cons.mp hz with rfl | hz
            · exact ((hkey z hz' z hz').mpr rfl).le
            · exact (List.pairwise_cons.mp hrest).1 z hz
          have hyx := h.trans y hy z hz' x hx hyz hzx.le
          have hxy : cmp x y = 0 :=
            le_antisymm (hfirst y List.mem_cons_self) ((h.antisymm y hy x hx).mp hyx)
          rw [List.head?_cons, Option.map_some, (hkey x hx y hy).mp hxy]

end Comparison

end Foundation
