import Mathlib.Tactic

/-!
Filling places one after the other, by backtracking.

A board assigns a number to every place.  `Fits ok m as vs` says that the numbers `vs` can be put
into the places `as` of the board `m` in order, each of them allowed by `ok` on the board that the
ones before it left.  A search that tries the numbers of each place in ascending order finds the
lexicographically least such list (`LeastFit.cons`).
-/

namespace Foundation

variable {ι : Type*} [DecidableEq ι]

/-- The numbers fit into the places, one after the other. -/
def Fits (ok : (ι → ℕ) → ι → ℕ → Prop) : (ι → ℕ) → List ι → List ℕ → Prop
  | _, [], vs => vs = []
  | _, _ :: _, [] => False
  | m, a :: as, v :: vs => ok m a v ∧ Fits ok (Function.update m a v) as vs

/-- The board with the numbers in the places. -/
def fillIn (m : ι → ℕ) : List ι → List ℕ → ι → ℕ
  | a :: as, v :: vs => fillIn (Function.update m a v) as vs
  | _, _ => m

/-- The lexicographically least list of numbers that fits. -/
structure LeastFit (ok : (ι → ℕ) → ι → ℕ → Prop) (m : ι → ℕ) (as : List ι) (vs : List ℕ) :
    Prop where
  fits : Fits ok m as vs
  le : ∀ ws, Fits ok m as ws → vs ≤ ws

variable {ok : (ι → ℕ) → ι → ℕ → Prop} {m : ι → ℕ} {a b : ι} {as : List ι} {v : ℕ} {vs : List ℕ}

/-- What fits starts with a number for the first place. -/
lemma Fits.exists_cons (h : Fits ok m (a :: as) vs) :
    ∃ v ws, vs = v :: ws ∧ ok m a v ∧ Fits ok (Function.update m a v) as ws := by
  cases vs with
  | nil => exact h.elim
  | cons v ws => exact ⟨v, ws, rfl, h⟩

lemma LeastFit.nil : LeastFit ok m [] [] :=
  ⟨rfl, fun _ _ => not_lt.mp (List.not_lt_nil _)⟩

/-- **The first number that leads on is the one to take.** -/
lemma LeastFit.cons (hok : ok m a v) (h : LeastFit ok (Function.update m a v) as vs)
    (hless : ∀ u, u < v → ok m a u → ∀ ws, ¬ Fits ok (Function.update m a u) as ws) :
    LeastFit ok m (a :: as) (v :: vs) := by
  refine ⟨⟨hok, h.fits⟩, fun ws hws => ?_⟩
  obtain ⟨u, us, rfl, hu, hus⟩ := hws.exists_cons
  rw [← not_lt, List.cons_lt_cons_iff]
  rintro (hlt | ⟨rfl, hlt⟩)
  · exact hless u hlt hu us hus
  · exact absurd hlt (not_lt.mpr (h.le us hus))

/-- The places that are not filled keep their numbers. -/
lemma fillIn_of_notMem (hb : b ∉ as) : fillIn m as vs b = m b := by
  induction as generalizing m vs with
  | nil => rw [fillIn]; simp
  | cons a as ih =>
      cases vs with
      | nil => rw [fillIn]; simp
      | cons v vs =>
          rw [List.mem_cons, not_or] at hb
          rw [fillIn, ih hb.2, Function.update_of_ne hb.1]

lemma fillIn_cons {v : ℕ} {vs : List ℕ} :
    fillIn m (a :: as) (v :: vs) = fillIn (Function.update m a v) as vs := rfl

/-- What fits is what stands in the places afterwards. -/
lemma Fits.eq_map (has : as.Nodup) (h : Fits ok m as vs) : vs = as.map (fillIn m as vs) := by
  induction as generalizing m vs with
  | nil => exact h
  | cons a as ih =>
      obtain ⟨v, ws, rfl, -, hws⟩ := h.exists_cons
      obtain ⟨ha, has⟩ := List.nodup_cons.mp has
      rw [fillIn_cons, List.map_cons, fillIn_of_notMem ha, Function.update_self, ← ih has hws]

end Foundation
