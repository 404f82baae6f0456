import Wgs.Foundation.Runs

/-!
Probing a cyclic table.

`slot n pos i` is the slot at the distance `i` from `pos` in a table of `n` slots.  `probe` looks
at the slots from `pos` on until one of them stops it or it is back at `pos`; it looks at every
slot once at most (`probe_spec`).

A table keeps its keys reachable when no slot is empty between the home of a key and the slot that
holds it (`NoGap`): filling the first empty slot keeps it so (`NoGap.insert`), and a probe that
stops at the key or at an empty slot finds every key there is (`NoGap.finds`).
-/

namespace Foundation

/-- The slot at the distance `i` from `pos`. -/
def slot (n pos : ℤ) (i : ℕ) : ℤ := (pos + i) % n

/-- `while (!stop(t)) { t = (t + 1) % n; if (pos == t) return; }`: the slot the loop stops at, or
nothing if it comes back to `pos`.  The test of a slot may fault. -/
def probe (n : ℤ) (stop : ℤ → Option Bool) (pos : ℤ) : ℕ → ℤ → Option (Option ℤ)
  | 0, _ => none
  | fuel + 1, t => do
      let halt ← stop t
      if halt then return some t
      else
        let t := (t + 1).tmod n
        if pos = t then return none else probe n stop pos fuel t

/-- What a probe from `pos` finds: the first slot with `P`, or that no slot has it. -/
def Probed (n : ℤ) (P : ℤ → Prop) (pos : ℤ) : Option ℤ → Prop
  | some t => ∃ d : ℕ, d < n ∧ t = slot n pos d ∧ P t ∧ ∀ i < d, ¬ P (slot n pos i)
  | none => ∀ i : ℕ, i < n → ¬ P (slot n pos i)

section Slots

variable {n pos t : ℤ} {i j : ℕ}

lemma slot_nonneg (hn : 0 < n) : 0 ≤ slot n pos i := Int.emod_nonneg _ hn.ne'

lemma slot_lt (hn : 0 < n) : slot n pos i < n := Int.emod_lt_of_pos _ hn

lemma slot_zero (h0 : 0 ≤ pos) (hlt : pos < n) : slot n pos 0 = pos := by
  simpa [slot] using Int.emod_eq_of_lt h0 hlt

lemma slot_succ (hn : 0 < n) : slot n pos (i + 1) = (slot n pos i + 1).tmod n := by
  have hnonneg : 0 ≤ slot n pos i := slot_nonneg hn
  rw [Int.tmod_eq_emod_of_nonneg (by omega), slot, slot, Int.emod_add_emod, Nat.cast_succ,
    add_assoc]

/-- Different distances are different slots. -/
lemma slot_inj (hi : i < n) (hj : j < n) (h : slot n pos i = slot n pos j) : i = j := by
  have hmod : (i : ℤ) % n = j % n := Int.ModEq.add_left_cancel' pos h
  rw [Int.emod_eq_of_lt (by omega) hi, Int.emod_eq_of_lt (by omega) hj] at hmod
  exact_mod_cast hmod

/-- The distance of a slot. -/
lemma exists_slot (pos : ℤ) (h0 : 0 ≤ t) (hlt : t < n) : ∃ d : ℕ, d < n ∧ slot n pos d = t := by
  have hn : 0 < n := by omega
  have hnonneg := Int.emod_nonneg (t - pos) hn.ne'
  refine ⟨((t - pos) % n).toNat, ?_, ?_⟩
  · rw [Int.toNat_of_nonneg hnonneg]
    exact Int.emod_lt_of_pos _ hn
  · rw [slot, Int.toNat_of_nonneg hnonneg, Int.add_emod_emod, add_sub_cancel,
      Int.emod_eq_of_lt h0 hlt]

/-- All the way around. -/
lemma slot_full (hn : 0 < n) (h0 : 0 ≤ pos) (hlt : pos < n) : slot n pos n.toNat = pos := by
  rw [slot, Int.toNat_of_nonneg hn.le, Int.add_emod_right, Int.emod_eq_of_lt h0 hlt]

end Slots

/-! ### The loop -/

section Loop

variable {n pos : ℤ} {stop : ℤ → Option Bool} {P : ℤ → Prop} [DecidablePred P]

/-- At a slot with `P` the probe stops. -/
lemma probe_here (hn : 0 < n) (hstop : ∀ t, 0 ≤ t → t < n → stop t = some (decide (P t))) {i : ℕ}
    (hi : i < n) (hP : P (slot n pos i)) (hbefore : ∀ j < i, ¬ P (slot n pos j)) :
    ∃ r, Returns (fun fuel => probe n stop pos fuel (slot n pos i)) r ∧ Probed n P pos r := by
  refine ⟨some (slot n pos i), .of_add 1 fun fuel => ?_, i, hi, rfl, hP, hbefore⟩
  simp [probe, hstop _ (slot_nonneg hn) (slot_lt hn), hP]

/-- The rest of a probe, at the distance `i` with `k` slots to go. -/
lemma probe_rest (h0 : 0 ≤ pos) (hlt : pos < n)
    (hstop : ∀ t, 0 ≤ t → t < n → stop t = some (decide (P t))) (k : ℕ) :
    ∀ i : ℕ, (i : ℤ) + k + 1 = n → (∀ j < i, ¬ P (slot n pos j)) →
      ∃ r, Returns (fun fuel => probe n stop pos fuel (slot n pos i)) r ∧ Probed n P pos r := by
  have hn : 0 < n := by omega
  induction k with
  | zero =>
      intro i hi hbefore
      by_cases hP : P (slot n pos i)
      · exact probe_here hn hstop (by omega) hP hbefore
      · -- the last slot: the next one is the first again
        have hround : slot n pos (i + 1) = pos := by
          rw [show i + 1 = n.toNat by omega, slot_full hn h0 hlt]
        refine ⟨none, .of_add 1 fun fuel => ?_, fun j hj => ?_⟩
        · simp [probe, hstop _ (slot_nonneg hn) (slot_lt hn), hP, ← slot_succ hn, hround]
        · rcases (show j < i ∨ j = i by omega) with hj | rfl
          · exact hbefore j hj
          · exact hP
  | succ k ih =>
      intro i hi hbefore
      by_cases hP : P (slot n pos i)
      · exact probe_here hn hstop (by omega) hP hbefore
      · have hne : pos ≠ slot n pos (i + 1) := by
          intro heq
          have hzero := slot_zero (n := n) h0 hlt
          have := slot_inj (n := n) (i := 0) (j := i + 1) (by simpa using hn)
            (by push_cast; omega) (hzero.trans heq)
          omega
        obtain ⟨r, hr, hprobed⟩ := ih (i + 1) (by push_cast; omega) fun j hj => by
          rcases (show j < i ∨ j = i by omega) with hj | rfl
          · exact hbefore j hj
          · exact hP
        refine ⟨r, hr.succ fun fuel hreturn => ?_, hprobed⟩
        simp only [probe, hstop _ (slot_nonneg hn) (slot_lt hn), ← slot_succ hn, hP, hne, if_false,
          decide_false, Option.bind_eq_bind, Option.bind_some, Bool.false_eq_true]
        exact hreturn

/-- **A probe ends**, at the first slot that stops it or where it began. -/
theorem probe_spec (h0 : 0 ≤ pos) (hlt : pos < n)
    (hstop : ∀ t, 0 ≤ t → t < n → stop t = some (decide (P t))) :
    ∃ r, Returns (fun fuel => probe n stop pos fuel pos) r ∧ Probed n P pos r := by
  obtain ⟨k, hk⟩ : ∃ k : ℕ, (k : ℤ) + 1 = n := ⟨(n - 1).toNat, by omega⟩
  have hends := probe_rest h0 hlt hstop k 0 (by simpa using hk) (by simp)
  rwa [slot_zero h0 hlt] at hends

end Loop

/-! ### Tables of keys -/

section Table

variable {κ : Type*} {n : ℤ} {vacant k : κ} {home : κ → ℤ} {table : ℤ → κ} {t : ℤ}

/-- No slot is empty on the way from the home of a key to the slot that holds it. -/
def NoGap (n : ℤ) (vacant : κ) (home : κ → ℤ) (table : ℤ → κ) : Prop :=
  ∀ d : ℕ, ∀ k : κ, k ≠ vacant → d < n → table (slot n (home k) d) = k →
    ∀ i ≤ d, table (slot n (home k) i) ≠ vacant

/-- A key in the first empty slot from its home on. -/
lemma NoGap.insert (h : NoGap n vacant home table) {d : ℕ} (hd : d < n)
    (ht : t = slot n (home k) d) (hbefore : ∀ i < d, table (slot n (home k) i) ≠ vacant)
    (hvacant : table t = vacant) : NoGap n vacant home (Function.update table t k) := by
  intro e q hq he hheld i hi
  -- a slot that was filled is filled, and so is the new one
  have hfilled : ∀ j, table j ≠ vacant → Function.update table t k j ≠ vacant := by
    intro j hj
    rw [Function.update_of_ne]
    · exact hj
    · rintro rfl
      exact hj hvacant
  by_cases hslot : slot n (home q) e = t
  · rw [hslot, Function.update_self] at hheld
    subst hheld
    obtain rfl : e = d := slot_inj he hd (hslot.trans ht)
    rcases hi.lt_or_eq with hi | rfl
    · exact hfilled _ (hbefore i hi)
    · rw [hslot, Function.update_self]
      exact hq
  · rw [Function.update_of_ne hslot] at hheld
    exact hfilled _ (h e q hq he hheld i hi)

/-- **A key that is there is found**: the probe stops at it, and at no empty slot before. -/
lemma NoGap.finds (h : NoGap n vacant home table) (hk : k ≠ vacant) (h0 : 0 ≤ t) (hlt : t < n)
    (hheld : table t = k) {r : Option ℤ}
    (hr : Probed n (fun t => table t = k ∨ table t = vacant) (home k) r) :
    ∃ t, r = some t ∧ 0 ≤ t ∧ t < n ∧ table t = k := by
  obtain ⟨e, he, rfl⟩ := exists_slot (home k) h0 hlt
  cases r with
  | none => exact absurd (Or.inl hheld) (hr e he)
  | some t =>
      obtain ⟨d, hd, rfl, hstop, hbefore⟩ := hr
      have hde : d ≤ e := by
        by_contra hlt
        exact hbefore e (by omega) (Or.inl hheld)
      refine ⟨_, rfl, slot_nonneg (by omega), slot_lt (by omega), ?_⟩
      rcases hstop with hstop | hstop
      · exact hstop
      · exact absurd hstop (h e k hk he hheld d hde)

end Table

end Foundation
