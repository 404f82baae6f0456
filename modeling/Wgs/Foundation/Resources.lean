import Mathlib.Tactic

/-!
Traces of acquired and released resources.

`replay held T` follows a trace from the set of the resources held: it gives the set held at the
end, and nothing if the trace acquires what is held or releases what is not.  A trace that comes
back to the empty set has released everything it acquired exactly once, and nothing else.
-/

namespace Foundation

/-- A resource is acquired or released. -/
inductive Event (ρ : Type*) where
  | acquire (r : ρ)
  | release (r : ρ)
  deriving DecidableEq

variable {ρ : Type*} [DecidableEq ρ]

/-- The resources held after a trace. -/
def replay (held : Finset ρ) : List (Event ρ) → Option (Finset ρ)
  | [] => some held
  | .acquire r :: T => if r ∈ held then none else replay (insert r held) T
  | .release r :: T => if r ∈ held then replay (held.erase r) T else none

lemma replay_append (held : Finset ρ) (T T' : List (Event ρ)) :
    replay held (T ++ T') = (replay held T).bind fun h => replay h T' := by
  induction T generalizing held with
  | nil => rfl
  | cons e T ih =>
      cases e with
      | acquire r =>
          rw [List.cons_append, replay, replay]
          split
          · rfl
          · exact ih _
      | release r =>
          rw [List.cons_append, replay, replay]
          split
          · exact ih _
          · rfl

/-- Acquiring resources that are not held adds them. -/
lemma replay_acquires {held : Finset ρ} {rs : List ρ} (hnodup : rs.Nodup)
    (hnew : ∀ r ∈ rs, r ∉ held) : replay held (rs.map .acquire) = some (held ∪ rs.toFinset) := by
  induction rs generalizing held with
  | nil => simp [replay]
  | cons r rs ih =>
      rw [List.nodup_cons] at hnodup
      rw [List.map_cons, replay, if_neg (hnew r (by simp)), ih hnodup.2]
      · rw [List.toFinset_cons, Finset.insert_union, Finset.union_insert]
      · intro q hq hmem
        rcases Finset.mem_insert.mp hmem with rfl | hmem
        · exact hnodup.1 hq
        · exact hnew q (by simp [hq]) hmem

/-- Releasing resources that are held takes them away. -/
lemma replay_releases {held : Finset ρ} {rs : List ρ} (hnodup : rs.Nodup)
    (hheld : ∀ r ∈ rs, r ∈ held) : replay held (rs.map .release) = some (held \ rs.toFinset) := by
  induction rs generalizing held with
  | nil => simp [replay]
  | cons r rs ih =>
      rw [List.nodup_cons] at hnodup
      rw [List.map_cons, replay, if_pos (hheld r (by simp)), ih hnodup.2]
      · rw [List.toFinset_cons, Finset.sdiff_insert, Finset.erase_sdiff_comm]
      · intro q hq
        refine Finset.mem_erase.mpr ⟨?_, hheld q (by simp [hq])⟩
        rintro rfl
        exact hnodup.1 hq

/-- **A trace that first acquires and then releases** is left with the difference. -/
lemma replay_acquires_releases {as rs : List ρ} (has : as.Nodup) (hrs : rs.Nodup)
    (hsub : ∀ r ∈ rs, r ∈ as) :
    replay ∅ (as.map .acquire ++ rs.map .release) = some (as.toFinset \ rs.toFinset) := by
  rw [replay_append, replay_acquires has (by simp), Option.bind_some, Finset.empty_union]
  exact replay_releases hrs fun r hr => List.mem_toFinset.mpr (hsub r hr)

end Foundation
