import Mathlib.Tactic

/-!
Rotating the beginning of a list.

`rotatePrefix xs l` moves the first member of `xs` behind the next `l - 1` ones.  A series of such
rotations with ascending lengths gives a list without repetitions back exactly when each length
comes a number of times that it divides (`foldl_rotatePrefix_eq_iff`): the last member of the
longest prefix is moved by the rotations of that length alone.
-/

namespace Foundation

variable {α : Type*} {xs : List α} {ls : List ℕ} {k l m : ℕ}

/-- The first `l` members of the list are rotated by one. -/
def rotatePrefix (xs : List α) (l : ℕ) : List α := (xs.take l).rotate 1 ++ xs.drop l

lemma rotatePrefix_perm : (rotatePrefix xs l).Perm xs := by
  have hperm := ((xs.take l).rotate_perm 1).append_right (xs.drop l)
  rwa [List.take_append_drop] at hperm

lemma foldl_rotatePrefix_perm : (ls.foldl rotatePrefix xs).Perm xs := by
  induction ls generalizing xs with
  | nil => exact .refl _
  | cons l ls ih => exact ih.trans rotatePrefix_perm

/-- Nothing moves behind the prefix. -/
lemma drop_rotatePrefix (hl : l ≤ xs.length) (hlk : l ≤ k) :
    (rotatePrefix xs l).drop k = xs.drop k := by
  have hlen : ((xs.take l).rotate 1).length = l := by
    rw [List.length_rotate, List.length_take, min_eq_left hl]
  rw [rotatePrefix, List.drop_append, List.drop_eq_nil_of_le (hlen.trans_le hlk), List.nil_append,
    hlen, List.drop_drop]
  congr 1
  omega

lemma drop_foldl_rotatePrefix (hls : ∀ l ∈ ls, l ≤ k) (hk : k ≤ xs.length) :
    (ls.foldl rotatePrefix xs).drop k = xs.drop k := by
  induction ls generalizing xs with
  | nil => rfl
  | cons l ls ih =>
      have hl := hls l List.mem_cons_self
      rw [List.foldl_cons, ih (fun l hl => hls l (List.mem_cons_of_mem _ hl))
        (rotatePrefix_perm.length_eq.symm ▸ hk), drop_rotatePrefix (hl.trans hk) hl]

/-- The same prefix again and again. -/
lemma foldl_replicate_rotatePrefix (hl : l ≤ xs.length) :
    (List.replicate m l).foldl rotatePrefix xs = (xs.take l).rotate m ++ xs.drop l := by
  induction m with
  | zero => rw [List.replicate_zero, List.foldl_nil, List.rotate_zero, List.take_append_drop]
  | succ m ih =>
      have hlen : ((xs.take l).rotate m).length = l := by
        rw [List.length_rotate, List.length_take, min_eq_left hl]
      rw [List.replicate_succ', List.foldl_append, ih, List.foldl_cons, List.foldl_nil,
        rotatePrefix, List.take_left' hlen, List.drop_left' hlen, List.rotate_rotate]

/-- An ascending list ends with the copies of its greatest member. -/
lemma exists_append_replicate (hls : ls.Pairwise (· ≤ ·)) (hle : ∀ l ∈ ls, l ≤ k + 1) :
    ∃ ls' m, ls = ls' ++ List.replicate m (k + 1) ∧ ∀ l ∈ ls', l ≤ k := by
  induction ls with
  | nil => exact ⟨[], 0, rfl, fun l hl => by cases hl⟩
  | cons a ls ih =>
      obtain ⟨ls', m, rfl, hls'⟩ := ih hls.of_cons fun l hl => hle l (List.mem_cons_of_mem _ hl)
      by_cases ha : a ≤ k
      · exact ⟨a :: ls', m, rfl, List.forall_mem_cons.mpr ⟨ha, hls'⟩⟩
      · -- the members behind `a` are not less than it
        have hak : a = k + 1 := le_antisymm (hle a List.mem_cons_self) (by omega)
        have hnil : ls' = [] := List.eq_nil_iff_forall_not_mem.mpr fun l hl => by
          have hal := List.rel_of_pairwise_cons hls (List.mem_append_left _ hl)
          have hlk := hls' l hl
          omega
        exact ⟨[], m + 1, by rw [hnil, hak]; rfl, fun l hl => by cases hl⟩

/-- A list with a rotated prefix is itself only when the prefix is rotated full circle. -/
lemma dvd_of_rotate_append_eq {ys : List α} (hys : ys.Nodup) (hk : k + 1 ≤ ys.length)
    (hdrop : ys.drop k = xs.drop k) (h : (ys.take (k + 1)).rotate m ++ ys.drop (k + 1) = xs) :
    k + 1 ∣ m := by
  have hlen : (ys.take (k + 1)).length = k + 1 := by rw [List.length_take, min_eq_left hk]
  have hlast : ((ys.take (k + 1)).rotate m)[k]? = ys[k]? := by
    have hxs : xs[k]? = ys[k]? := by
      rw [← List.head?_drop, ← List.head?_drop, hdrop]
    rw [← hxs, ← h, List.getElem?_append_left]
    rw [List.length_rotate, hlen]
    exact Nat.lt_succ_self k
  rw [List.getElem?_rotate (by omega), hlen, List.getElem?_take, if_pos (Nat.mod_lt _ (by omega))]
    at hlast
  have hmod : (k + m) % (k + 1) < k + 1 := Nat.mod_lt _ (by omega)
  rw [List.getElem?_eq_getElem (by omega), List.getElem?_eq_getElem (by omega), Option.some_inj,
    hys.getElem_inj_iff] at hlast
  have hdiv := Nat.div_add_mod (k + m) (k + 1)
  exact ⟨(k + m) / (k + 1), by omega⟩

/-- A full circle of a prefix, or some of them. -/
lemma rotate_take_of_dvd (hl : l ≤ xs.length) (hdvd : l ∣ m) :
    (xs.take l).rotate m ++ xs.drop l = xs := by
  obtain ⟨q, rfl⟩ := hdvd
  have htake : (xs.take l).length = l := by rw [List.length_take, min_eq_left hl]
  have hrotate := (xs.take l).rotate_length_mul q
  rw [htake] at hrotate
  rw [hrotate, List.take_append_drop]


/-- **When the rotations cancel out.** -/
theorem foldl_rotatePrefix_eq_iff (hxs : xs.Nodup) (hls : ls.Pairwise (· ≤ ·))
    (hle : ∀ l ∈ ls, l ≤ xs.length) :
    ls.foldl rotatePrefix xs = xs ↔ ∀ l, 1 ≤ l → l ∣ ls.count l := by
  suffices hbound : ∀ N, N ≤ xs.length → ∀ ls : List ℕ, ls.Pairwise (· ≤ ·) → (∀ l ∈ ls, l ≤ N) →
      (ls.foldl rotatePrefix xs = xs ↔ ∀ l, 1 ≤ l → l ∣ ls.count l) from
    hbound xs.length le_rfl ls hls hle
  intro N
  induction N with
  | zero =>
      intro _ ls _ hle
      have hzero : ls.foldl rotatePrefix xs = xs := by
        simpa using drop_foldl_rotatePrefix hle (Nat.zero_le _)
      refine ⟨fun _ l hl => ?_, fun _ => hzero⟩
      rw [List.count_eq_zero_of_not_mem fun hmem => by have := hle l hmem; omega]
      exact dvd_zero l
  | succ N ih =>
      intro hN ls hls hle
      obtain ⟨ls', m, rfl, hls'⟩ := exists_append_replicate hls hle
      have ih' := ih (by omega) ls' (List.pairwise_append.mp hls).1 hls'
      set ys := ls'.foldl rotatePrefix xs with hys
      have hperm : ys.Perm xs := foldl_rotatePrefix_perm
      have hlen : N + 1 ≤ ys.length := hperm.length_eq.symm ▸ hN
      have hcount : ∀ l, l ≤ N → (ls' ++ List.replicate m (N + 1)).count l = ls'.count l :=
        fun l hl => by
          rw [List.count_append, List.count_replicate, if_neg (by simp; omega), add_zero]
      have hlast : (ls' ++ List.replicate m (N + 1)).count (N + 1) = m := by
        rw [List.count_append, List.count_replicate_self,
          List.count_eq_zero_of_not_mem fun hmem => by have := hls' _ hmem; omega, zero_add]
      rw [List.foldl_append, ← hys, foldl_replicate_rotatePrefix hlen]
      constructor
      · intro h
        have hdrop : ys.drop N = xs.drop N := drop_foldl_rotatePrefix hls' (by omega)
        have hdvd := dvd_of_rotate_append_eq (hperm.nodup_iff.mpr hxs) hlen hdrop h
        rw [rotate_take_of_dvd hlen hdvd] at h
        intro l hl
        rcases le_or_gt l N with hlN | hlN
        · rw [hcount l hlN]
          exact ih'.mp h l hl
        · rcases (Nat.succ_le_of_lt hlN).eq_or_lt with rfl | hgt
          · rwa [hlast]
          · rw [List.count_eq_zero_of_not_mem fun hmem => by have := hle _ hmem; omega]
            exact dvd_zero l
      · intro hdvd
        have hm := hdvd (N + 1) (by omega)
        rw [hlast] at hm
        rw [rotate_take_of_dvd hlen hm]
        refine ih'.mpr fun l hl => ?_
        rcases le_or_gt l N with hlN | hlN
        · rw [← hcount l hlN]
          exact hdvd l hl
        · rw [List.count_eq_zero_of_not_mem fun hmem => by have := hls' _ hmem; omega]
          exact dvd_zero l

end Foundation
