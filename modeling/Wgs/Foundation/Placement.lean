import Mathlib.Tactic

/-!
Families of lists of which every element has a place.

`Placed L place` says that an element is in the list of its place, and in no other, once.  An
element without a place can be put into one list (`Placed.put`), and it can be taken out of all of
them (`Placed.erase`); which list that is, a proof need not know.
-/

namespace Foundation

variable {ι α : Type*}

/-- An element is in the list of its place, once. -/
structure Placed (L : ι → List α) (place : α → Option ι) : Prop where
  mem : ∀ i a, a ∈ L i ↔ place a = some i
  nodup : ∀ i, (L i).Nodup

/-- What is true of the elements of a family stays true when one list is replaced. -/
lemma forall_mem_update [DecidableEq ι] {L : ι → List α} {P : α → Prop} {i : ι} {K : List α}
    (h : ∀ j, ∀ a ∈ L j, P a) (hK : ∀ a ∈ K, P a) : ∀ j, ∀ a ∈ Function.update L i K j, P a := by
  intro j a ha
  rcases eq_or_ne j i with rfl | hne
  · rw [Function.update_self] at ha
    exact hK a ha
  · rw [Function.update_of_ne hne] at ha
    exact h j a ha

namespace Placed

variable {L : ι → List α} {place : α → Option ι} {i j : ι} {a b : α}

lemma empty : Placed (fun _ : ι => ([] : List α)) fun _ => none :=
  ⟨fun _ _ => by simp, fun _ => List.nodup_nil⟩

lemma congr (h : Placed L place) {place' : α → Option ι} (hplace : ∀ b, place' b = place b) :
    Placed L place' := by
  rwa [show place' = place from funext hplace]

lemma notMem (h : Placed L place) (ha : place a = none) (i : ι) : a ∉ L i := by
  rw [h.mem, ha]
  exact Option.some_ne_none i ∘ Eq.symm

/-- An element is in one list at most. -/
lemma unique (h : Placed L place) (hi : a ∈ L i) (hj : a ∈ L j) : i = j :=
  Option.some_inj.mp (((h.mem i a).mp hi).symm.trans ((h.mem j a).mp hj))

lemma place_eq_none (h : Placed L place) (ha : ∀ i, a ∉ L i) : place a = none := by
  cases hp : place a with
  | none => rfl
  | some i => exact absurd ((h.mem i a).mpr hp) (ha i)

variable [DecidableEq ι]

/-- A list is reordered. -/
lemma reorder (h : Placed L place) {K : List α} (hK : K.Perm (L i)) :
    Placed (Function.update L i K) place where
  mem j b := by
    rcases eq_or_ne j i with rfl | hne
    · rw [Function.update_self, hK.mem_iff, h.mem]
    · rw [Function.update_of_ne hne, h.mem]
  nodup j := by
    rcases eq_or_ne j i with rfl | hne
    · rw [Function.update_self, hK.nodup_iff]
      exact h.nodup j
    · rw [Function.update_of_ne hne]
      exact h.nodup j

variable [DecidableEq α]

/-- **An element is put into a list.** -/
lemma put (h : Placed L place) (ha : place a = none) {K : List α} (hK : K.Perm (a :: L i)) :
    Placed (Function.update L i K) (Function.update place a (some i)) where
  mem j b := by
    have hmem : b ∈ Function.update L i K j ↔ (b = a ∧ j = i) ∨ place b = some j := by
      rcases eq_or_ne j i with rfl | hne
      · rw [Function.update_self, hK.mem_iff, List.mem_cons, h.mem]
        simp
      · rw [Function.update_of_ne hne, h.mem]
        simp [hne]
    rw [hmem]
    rcases eq_or_ne b a with rfl | hne
    · simp [ha, eq_comm]
    · simp [hne]
  nodup j := by
    rcases eq_or_ne j i with rfl | hne
    · rw [Function.update_self, hK.nodup_iff, List.nodup_cons]
      exact ⟨h.notMem ha j, h.nodup j⟩
    · rw [Function.update_of_ne hne]
      exact h.nodup j

omit [DecidableEq ι] in
/-- **An element is taken out.** -/
lemma erase (h : Placed L place) (a : α) :
    Placed (fun i => (L i).erase a) (Function.update place a none) where
  mem j b := by
    rw [(h.nodup j).mem_erase_iff, h.mem]
    rcases eq_or_ne b a with rfl | hne
    · simp
    · simp [hne]
  nodup j := (h.nodup j).erase a

end Placed

end Foundation
