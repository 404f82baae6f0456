import Mathlib.Data.Finset.Max
import Mathlib.Data.Finset.Prod
import Mathlib.Order.Bounds.Basic
import Mathlib.Tactic

/-!
Assignments of sizes to demands, and a greedy way to as many of them as possible.

A size fits each demand that is not greater.  When a size gets the greatest of the demands that it
fits, nothing is lost: if an assignment gives these two to others, the others may be assigned to
each other, as what fits the one demand fits the lesser one (`IsLargest.give`).  A size that fits no
demand may be left out (`IsLargest.leave`).
-/

namespace Foundation

variable {ι κ α : Type*} [LinearOrder α]

/-- Pairs of a size and a demand that it fits, where no size and no demand comes twice. -/
structure IsAssignment (f : ι → α) (g : κ → α) (J : Finset ι) (I : Finset κ)
    (P : Finset (ι × κ)) : Prop where
  left_mem : ∀ p ∈ P, p.1 ∈ J
  right_mem : ∀ p ∈ P, p.2 ∈ I
  fits : ∀ p ∈ P, g p.2 ≤ f p.1
  left_inj : ∀ p ∈ P, ∀ q ∈ P, p.1 = q.1 → p = q
  right_inj : ∀ p ∈ P, ∀ q ∈ P, p.2 = q.2 → p = q

/-- The largest number of pairs in an assignment. -/
def IsLargest (f : ι → α) (g : κ → α) (J : Finset ι) (I : Finset κ) (k : ℕ) : Prop :=
  IsGreatest {k | ∃ P, IsAssignment f g J I P ∧ P.card = k} k

variable {f : ι → α} {g : κ → α} {J J' : Finset ι} {I I' : Finset κ} {P Q : Finset (ι × κ)} {j : ι}
  {i : κ} {k : ℕ}

namespace IsAssignment

lemma mono (h : IsAssignment f g J I P) (hQ : Q ⊆ P) (hJ : ∀ p ∈ Q, p.1 ∈ J')
    (hI : ∀ p ∈ Q, p.2 ∈ I') : IsAssignment f g J' I' Q where
  left_mem := hJ
  right_mem := hI
  fits p hp := h.fits p (hQ hp)
  left_inj p hp q hq := h.left_inj p (hQ hp) q (hQ hq)
  right_inj p hp q hq := h.right_inj p (hQ hp) q (hQ hq)

lemma congr {f' : ι → α} {g' : κ → α} (h : IsAssignment f g J I P) (hf : ∀ j ∈ J, f' j = f j)
    (hg : ∀ i ∈ I, g' i = g i) : IsAssignment f' g' J I P where
  left_mem := h.left_mem
  right_mem := h.right_mem
  fits := by
    intro p hp
    rw [hf _ (h.left_mem p hp), hg _ (h.right_mem p hp)]
    exact h.fits p hp
  left_inj := h.left_inj
  right_inj := h.right_inj

lemma map {σ : Equiv.Perm ι} {τ : Equiv.Perm κ} (h : IsAssignment (f ∘ σ) (g ∘ τ) J I P)
    (hσ : ∀ j ∈ J, σ j ∈ J) (hτ : ∀ i ∈ I, τ i ∈ I) :
    IsAssignment f g J I (P.map (σ.prodCongr τ).toEmbedding) := by
  constructor
  · intro _ hmem
    obtain ⟨p, hp, rfl⟩ := Finset.mem_map.mp hmem
    exact hσ _ (h.left_mem p hp)
  · intro _ hmem
    obtain ⟨p, hp, rfl⟩ := Finset.mem_map.mp hmem
    exact hτ _ (h.right_mem p hp)
  · intro _ hmem
    obtain ⟨p, hp, rfl⟩ := Finset.mem_map.mp hmem
    exact h.fits p hp
  · intro _ hmem _ hmem' heq
    obtain ⟨p, hp, rfl⟩ := Finset.mem_map.mp hmem
    obtain ⟨q, hq, rfl⟩ := Finset.mem_map.mp hmem'
    rw [h.left_inj p hp q hq (σ.injective heq)]
  · intro _ hmem _ hmem' heq
    obtain ⟨p, hp, rfl⟩ := Finset.mem_map.mp hmem
    obtain ⟨q, hq, rfl⟩ := Finset.mem_map.mp hmem'
    rw [h.right_inj p hp q hq (τ.injective heq)]

variable [DecidableEq ι] [DecidableEq κ]

/-- A pair of which neither comes in the others. -/
lemma insert (h : IsAssignment f g (J.erase j) (I.erase i) P) (hj : j ∈ J) (hi : i ∈ I)
    (hfits : g i ≤ f j) : IsAssignment f g J I (insert (j, i) P) where
  left_mem := by
    intro p hp
    rcases Finset.mem_insert.mp hp with rfl | hp
    · exact hj
    · exact Finset.mem_of_mem_erase (h.left_mem p hp)
  right_mem := by
    intro p hp
    rcases Finset.mem_insert.mp hp with rfl | hp
    · exact hi
    · exact Finset.mem_of_mem_erase (h.right_mem p hp)
  fits := by
    intro p hp
    rcases Finset.mem_insert.mp hp with rfl | hp
    · exact hfits
    · exact h.fits p hp
  left_inj := by
    intro p hp q hq heq
    rcases Finset.mem_insert.mp hp with rfl | hp
    · rcases Finset.mem_insert.mp hq with rfl | hq
      · rfl
      · exact absurd heq.symm (Finset.ne_of_mem_erase (h.left_mem q hq))
    · rcases Finset.mem_insert.mp hq with rfl | hq
      · exact absurd heq (Finset.ne_of_mem_erase (h.left_mem p hp))
      · exact h.left_inj p hp q hq heq
  right_inj := by
    intro p hp q hq heq
    rcases Finset.mem_insert.mp hp with rfl | hp
    · rcases Finset.mem_insert.mp hq with rfl | hq
      · rfl
      · exact absurd heq.symm (Finset.ne_of_mem_erase (h.right_mem q hq))
    · rcases Finset.mem_insert.mp hq with rfl | hq
      · exact absurd heq (Finset.ne_of_mem_erase (h.right_mem p hp))
      · exact h.right_inj p hp q hq heq

/-- **The exchange**: of an assignment, one without this size and the greatest demand that it fits
is left, with one pair less at most. -/
lemma exists_without (h : IsAssignment f g J I P) (hbest : ∀ i' ∈ I, g i' ≤ f j → g i' ≤ g i) :
    ∃ Q, IsAssignment f g (J.erase j) (I.erase i) Q ∧ P.card ≤ Q.card + 1 := by
  set R := P.filter fun p => p.1 = j ∨ p.2 = i with hR
  set S := P.filter fun p => ¬ (p.1 = j ∨ p.2 = i) with hS
  have hcard : R.card + S.card = P.card := Finset.card_filter_add_card_filter_not _
  have hSmem : ∀ p ∈ S, p ∈ P ∧ p.1 ≠ j ∧ p.2 ≠ i := by
    intro p hp
    obtain ⟨hpP, hp⟩ := Finset.mem_filter.mp hp
    exact ⟨hpP, not_or.mp hp⟩
  by_cases hone : R.card ≤ 1
  · refine ⟨S, h.mono (Finset.filter_subset _ _) (fun p hp => ?_) (fun p hp => ?_), by omega⟩
    · obtain ⟨hpP, hpj, -⟩ := hSmem p hp
      exact Finset.mem_erase.mpr ⟨hpj, h.left_mem p hpP⟩
    · obtain ⟨hpP, -, hpi⟩ := hSmem p hp
      exact Finset.mem_erase.mpr ⟨hpi, h.right_mem p hpP⟩
  · -- the size and the demand are in two pairs, whose other ends are put together
    obtain ⟨a, ha, b, hb, hne, haj, hbi⟩ : ∃ a ∈ P, ∃ b ∈ P, a ≠ b ∧ a.1 = j ∧ b.2 = i := by
      obtain ⟨p, hp, q, hq, hne⟩ := Finset.one_lt_card.mp (not_le.mp hone)
      obtain ⟨hpP, hp⟩ := Finset.mem_filter.mp hp
      obtain ⟨hqP, hq⟩ := Finset.mem_filter.mp hq
      rcases hp with hp | hp <;> rcases hq with hq | hq
      · exact absurd (h.left_inj p hpP q hqP (hp.trans hq.symm)) hne
      · exact ⟨p, hpP, q, hqP, hne, hp, hq⟩
      · exact ⟨q, hqP, p, hpP, hne.symm, hq, hp⟩
      · exact absurd (h.right_inj p hpP q hqP (hp.trans hq.symm)) hne
    have hbj : b.1 ≠ j := fun heq => hne (h.left_inj a ha b hb (haj.trans heq.symm))
    have hai : a.2 ≠ i := fun heq => hne (h.right_inj a ha b hb (heq.trans hbi.symm))
    have hRcard : R.card ≤ 2 := by
      refine (Finset.card_le_card (t := {a, b}) fun p hp => ?_).trans Finset.card_le_two
      obtain ⟨hpP, hp⟩ := Finset.mem_filter.mp hp
      rw [Finset.mem_insert, Finset.mem_singleton]
      exact hp.imp (fun hp => h.left_inj p hpP a ha (hp.trans haj.symm))
        fun hp => h.right_inj p hpP b hb (hp.trans hbi.symm)
    have hfits : g a.2 ≤ f b.1 := by
      have hle : g a.2 ≤ f j := haj ▸ h.fits a ha
      calc g a.2
          ≤ g i := hbest a.2 (h.right_mem a ha) hle
        _ = g b.2 := by rw [hbi]
        _ ≤ f b.1 := h.fits b hb
    have hrest : IsAssignment f g ((J.erase j).erase b.1) ((I.erase i).erase a.2) S := by
      refine h.mono (Finset.filter_subset _ _) (fun p hp => ?_) (fun p hp => ?_)
      · obtain ⟨hpP, hpj, hpi⟩ := hSmem p hp
        refine Finset.mem_erase.mpr ⟨fun heq => ?_, Finset.mem_erase.mpr ⟨hpj, h.left_mem p hpP⟩⟩
        exact hpi (h.left_inj p hpP b hb heq ▸ hbi)
      · obtain ⟨hpP, hpj, hpi⟩ := hSmem p hp
        refine Finset.mem_erase.mpr ⟨fun heq => ?_, Finset.mem_erase.mpr ⟨hpi, h.right_mem p hpP⟩⟩
        exact hpj (h.right_inj p hpP a ha heq ▸ haj)
    have hnew : (b.1, a.2) ∉ S := fun hmem => Finset.ne_of_mem_erase (hrest.left_mem _ hmem) rfl
    refine ⟨Insert.insert (b.1, a.2) S, hrest.insert (Finset.mem_erase.mpr ⟨hbj, h.left_mem b hb⟩)
      (Finset.mem_erase.mpr ⟨hai, h.right_mem a ha⟩) hfits, ?_⟩
    rw [Finset.card_insert_of_notMem hnew]
    omega

end IsAssignment

namespace IsLargest

lemma empty : IsLargest f g ∅ I 0 := by
  constructor
  · exact ⟨∅, ⟨by simp, by simp, by simp, by simp, by simp⟩, rfl⟩
  · rintro _ ⟨Q, hQ, rfl⟩
    have hempty : Q = ∅ := Finset.eq_empty_of_forall_notMem fun p hp =>
      absurd (hQ.left_mem p hp) (Finset.notMem_empty _)
    rw [hempty, Finset.card_empty]

lemma congr {f' : ι → α} {g' : κ → α} (h : IsLargest f g J I k) (hf : ∀ j ∈ J, f' j = f j)
    (hg : ∀ i ∈ I, g' i = g i) : IsLargest f' g' J I k := by
  obtain ⟨⟨P, hP, hcard⟩, hmax⟩ := h
  constructor
  · exact ⟨P, hP.congr hf hg, hcard⟩
  · rintro _ ⟨Q, hQ, rfl⟩
    exact hmax ⟨Q, hQ.congr (fun j hj => (hf j hj).symm) fun i hi => (hg i hi).symm, rfl⟩

/-- The sizes and the demands may be permuted. -/
lemma of_comp {σ : Equiv.Perm ι} {τ : Equiv.Perm κ} (h : IsLargest (f ∘ σ) (g ∘ τ) J I k)
    (hσ : ∀ j, σ j ∈ J ↔ j ∈ J) (hτ : ∀ i, τ i ∈ I ↔ i ∈ I) : IsLargest f g J I k := by
  obtain ⟨⟨P, hP, hcard⟩, hmax⟩ := h
  constructor
  · refine ⟨_, hP.map (fun j hj => (hσ j).mpr hj) fun i hi => (hτ i).mpr hi, ?_⟩
    rw [Finset.card_map, hcard]
  · rintro _ ⟨Q, hQ, rfl⟩
    have hback : IsAssignment ((f ∘ σ) ∘ σ.symm) ((g ∘ τ) ∘ τ.symm) J I Q := by
      rwa [Function.comp_assoc, Equiv.self_comp_symm, Function.comp_id, Function.comp_assoc,
        Equiv.self_comp_symm, Function.comp_id]
    refine hmax ⟨_, hback.map (fun j hj => ?_) (fun i hi => ?_), Finset.card_map _⟩
    · rwa [← hσ, Equiv.apply_symm_apply]
    · rwa [← hτ, Equiv.apply_symm_apply]

variable [DecidableEq ι]

/-- A size that fits no demand is left out. -/
lemma leave (h : IsLargest f g (J.erase j) I k) (hnone : ∀ i ∈ I, ¬ g i ≤ f j) :
    IsLargest f g J I k := by
  obtain ⟨⟨P, hP, hcard⟩, hmax⟩ := h
  constructor
  · exact ⟨P, hP.mono subset_rfl (fun p hp => Finset.mem_of_mem_erase (hP.left_mem p hp))
      hP.right_mem, hcard⟩
  · rintro _ ⟨Q, hQ, rfl⟩
    refine hmax ⟨Q, hQ.mono subset_rfl (fun p hp => ?_) hQ.right_mem, rfl⟩
    refine Finset.mem_erase.mpr ⟨?_, hQ.left_mem p hp⟩
    rintro rfl
    exact hnone p.2 (hQ.right_mem p hp) (hQ.fits p hp)

variable [DecidableEq κ]

/-- **A size gets the greatest demand that it fits.** -/
lemma give (h : IsLargest f g (J.erase j) (I.erase i) k) (hj : j ∈ J) (hi : i ∈ I)
    (hfits : g i ≤ f j) (hbest : ∀ i' ∈ I, g i' ≤ f j → g i' ≤ g i) :
    IsLargest f g J I (k + 1) := by
  obtain ⟨⟨P, hP, hcard⟩, hmax⟩ := h
  constructor
  · refine ⟨insert (j, i) P, hP.insert hj hi hfits, ?_⟩
    have hnew : (j, i) ∉ P := fun hmem => Finset.ne_of_mem_erase (hP.left_mem _ hmem) rfl
    rw [Finset.card_insert_of_notMem hnew, hcard]
  · rintro _ ⟨Q, hQ, rfl⟩
    obtain ⟨Q', hQ', hle⟩ := hQ.exists_without hbest
    exact hle.trans (Nat.succ_le_succ (hmax ⟨Q', hQ', rfl⟩))

end IsLargest

end Foundation
