import Wgs.Foundation.Sorting

/-!
Counting how often each key comes, and ranking the keys by that.

`mergeAdjacent` leaves one element for each run of equal keys, raised once for each element it
absorbs; over a list whose equal keys lie together it is one element for each key, and the number
of raises is what the key is short of its count (`mergeAdjacent_spec`).

`rankBy keys rep` orders the keys by decreasing count and then by a position `rep`.  The ranking
proper takes the first position of each key.  `take_rankBy_iff_settled` says for which keys the
head of the ranking does not depend on the position chosen.
-/

namespace Foundation

variable {α K : Type*}

/-! ### One element for each run -/

section Merge

variable [DecidableEq K]

/-- One element for each run of equal keys: the first of the run, raised for each other one. -/
def mergeAdjacent (key : α → K) (raise : α → α) (last : α) : List α → List α
  | [] => [last]
  | x :: xs =>
      if key x = key last then mergeAdjacent key raise (raise last) xs
      else last :: mergeAdjacent key raise x xs

variable {key : α → K} {raise : α → α} {last r : α} {xs : List α}

lemma mem_keys_mergeAdjacent (hraise : ∀ x, key (raise x) = key x) {k : K} :
    k ∈ (mergeAdjacent key raise last xs).map key ↔ k ∈ (last :: xs).map key := by
  induction xs generalizing last with
  | nil => rfl
  | cons x xs ih =>
      rw [mergeAdjacent]
      split_ifs with hx
      · rw [ih, List.map_cons, List.map_cons, List.map_cons, hraise, hx]
        simp
      · rw [List.map_cons, List.mem_cons, ih, List.map_cons (a := last), List.mem_cons]

lemma Contiguous.nodup_mergeAdjacent (h : Contiguous key (last :: xs))
    (hraise : ∀ x, key (raise x) = key x) :
    ((mergeAdjacent key raise last xs).map key).Nodup := by
  induction xs generalizing last with
  | nil => exact List.nodup_singleton _
  | cons x xs ih =>
      rw [mergeAdjacent]
      split_ifs with hx
      · exact ih (h.replace_head hx (hraise last))
      · rw [List.map_cons, List.nodup_cons, mem_keys_mergeAdjacent hraise]
        exact ⟨h.not_mem_of_ne hx, ih h.2⟩

/-- **What is left of a run**: the first element with the key, raised once less than the key
comes. -/
lemma Contiguous.mergeAdjacent_spec (h : Contiguous key (last :: xs))
    (hraise : ∀ x, key (raise x) = key x) (hr : r ∈ mergeAdjacent key raise last xs) :
    ∃ x m, (last :: xs).find? (fun y => key y = key r) = some x
      ∧ ((last :: xs).map key).count (key r) = m + 1 ∧ r = raise^[m] x := by
  have hself : (last :: xs).find? (fun y => key y = key last) = some last :=
    List.find?_cons_of_pos (by simp)
  induction xs generalizing last with
  | nil =>
      obtain rfl := List.mem_singleton.mp hr
      exact ⟨r, 0, hself, by simp, rfl⟩
  | cons x xs ih =>
      rw [mergeAdjacent] at hr
      split_ifs at hr with hx
      · obtain ⟨y, m, hy, hm, hreq⟩ := ih (h.replace_head hx (hraise last)) hr
          (List.find?_cons_of_pos (by simp))
        rw [List.map_cons, hraise] at hm
        by_cases hkey : key last = key r
        -- the run of `last` goes on: one raise more
        · rw [List.find?_cons_of_pos (by simpa [hraise] using hkey), Option.some.injEq] at hy
          rw [hkey, List.count_cons_self] at hm
          refine ⟨last, m + 1, List.find?_cons_of_pos (by simpa using hkey), ?_, ?_⟩
          · rw [List.map_cons, List.map_cons, hx, hkey, List.count_cons_self,
              List.count_cons_self, hm]
          · rw [Function.iterate_succ_apply, hreq, hy]
        -- another run: `last` and `x` are not in it
        · rw [List.find?_cons_of_neg (by simpa [hraise] using hkey)] at hy
          rw [List.count_cons_of_ne hkey] at hm
          refine ⟨y, m, ?_, ?_, hreq⟩
          · rwa [List.find?_cons_of_neg (by simpa using hkey),
              List.find?_cons_of_neg (by simpa [hx] using hkey)]
          · rwa [List.map_cons, List.map_cons, hx, List.count_cons_of_ne hkey,
              List.count_cons_of_ne hkey]
      · rcases List.mem_cons.mp hr with rfl | hr
        · refine ⟨r, 0, hself, ?_, rfl⟩
          rw [List.map_cons, List.count_cons_self,
            List.count_eq_zero_of_not_mem (h.not_mem_of_ne hx)]
        · have hmem : key r ∈ (x :: xs).map key :=
            (mem_keys_mergeAdjacent hraise).mp (List.mem_map_of_mem hr)
          have hkey : key last ≠ key r := fun heq => h.not_mem_of_ne hx (heq ▸ hmem)
          obtain ⟨y, m, hy, hm, hreq⟩ := ih h.2 hr (List.find?_cons_of_pos (by simp))
          refine ⟨y, m, ?_, ?_, hreq⟩
          · rwa [List.find?_cons_of_neg (by simpa using hkey)]
          · rwa [List.map_cons, List.count_cons_of_ne hkey]

end Merge

/-! ### Lists in two orders -/

section TwoOrders

variable {R S : K → K → Prop} {T P : List K} {n : ℕ}

/-- Two orders of the same elements begin alike where the first elements of one are before all
that follow them in the other as well. -/
lemma take_eq_take (hperm : P.Perm T) (hP : P.Pairwise R) (hT : T.Pairwise S)
    (hanti : ∀ a ∈ T, ∀ b ∈ T, R a b → R b a → a = b)
    (himp : ∀ a ∈ T.take n, ∀ b ∈ T, S a b → R a b) : P.take n = T.take n := by
  induction n generalizing T P with
  | zero => rfl
  | succ n ih =>
      cases T with
      | nil => rw [hperm.eq_nil]
      | cons a T =>
          obtain ⟨p, P, rfl⟩ := List.exists_cons_of_ne_nil (l := P) fun h => by simp [h] at hperm
          obtain ⟨hfirst, hrest⟩ := List.pairwise_cons.mp hT
          obtain ⟨hpfirst, hprest⟩ := List.pairwise_cons.mp hP
          have hhead : p = a := by
            rcases List.mem_cons.mp (hperm.mem_iff.mp List.mem_cons_self) with hp | hp
            · exact hp
            · rcases List.mem_cons.mp (hperm.mem_iff.mpr List.mem_cons_self) with ha | ha
              · exact ha.symm
              · exact hanti p (.tail _ hp) a List.mem_cons_self (hpfirst a ha)
                  (himp a List.mem_cons_self p (.tail _ hp) (hfirst p hp))
          subst hhead
          rw [List.take_succ_cons, List.take_succ_cons,
            ih hperm.cons_inv hprest hrest (fun a ha b hb => hanti a (.tail _ ha) b (.tail _ hb))
              fun a ha b hb => himp a (.tail _ ha) b (.tail _ hb)]

/-- What is before one of the first elements is one of them. -/
lemma mem_take_of_before (hP : P.Pairwise R) {a b : K} (ha : a ∈ P.take n) (hb : b ∈ P)
    (hnot : ¬ R a b) : b ∈ P.take n := by
  rw [← List.take_append_drop n P] at hP hb
  rcases List.mem_append.mp hb with hb | hb
  · exact hb
  · exact absurd ((List.pairwise_append.mp hP).2.2 a ha b hb) hnot

/-- Two elements stand one way or the other in every order of the list at once. -/
lemma pairwise_both (hR : P.Pairwise R) (hS : P.Pairwise S) {a b : K} (ha : a ∈ P) (hb : b ∈ P)
    (hne : a ≠ b) : R a b ∧ S a b ∨ R b a ∧ S b a := by
  have hboth : P.Pairwise fun x y => R x y ∧ S x y ∨ R y x ∧ S y x :=
    (hR.and hS).imp fun h => Or.inl h
  have hsymm : Std.Symm fun x y => R x y ∧ S x y ∨ R y x ∧ S y x := ⟨fun x y => Or.symm⟩
  exact hboth.forall ha hb hne

end TwoOrders

/-! ### The ranking -/

section Ranking

variable [DecidableEq K] (keys : List K) (rep : K → ℕ)

/-- `a` is `b` or ranks before it: it comes more often, or as often and at an earlier position. -/
def Ahead (a b : K) : Prop :=
  keys.count b < keys.count a ∨ keys.count a = keys.count b ∧ rep a ≤ rep b

instance : DecidableRel (Ahead keys rep) := fun a b =>
  inferInstanceAs (Decidable
    (keys.count b < keys.count a ∨ keys.count a = keys.count b ∧ rep a ≤ rep b))

/-- The keys, each once, by decreasing count and then by position. -/
def rankBy : List K := keys.dedup.insertionSort (Ahead keys rep)

/-- The keys, each once, by decreasing count and then by first appearance. -/
def ranking : List K := rankBy keys fun k => keys.idxOf k

/-- `rep` takes for each key a position where it is. -/
def Represents : Prop := ∀ k ∈ keys, keys[rep k]? = some k

/-- Each of the first `n` keys of the ranking has all its positions before the first one of any
key that comes as often and appears after it. -/
def Settled (n : ℕ) : Prop :=
  ∀ a ∈ (ranking keys).take n, ∀ b ∈ keys, keys.count a = keys.count b →
    keys.idxOf a < keys.idxOf b → ∀ i < keys.length, keys[i]? = some a → i < keys.idxOf b

instance (n : ℕ) : Decidable (Settled keys n) :=
  inferInstanceAs (Decidable (∀ a ∈ (ranking keys).take n, ∀ b ∈ keys, keys.count a = keys.count b →
    keys.idxOf a < keys.idxOf b → ∀ i < keys.length, keys[i]? = some a → i < keys.idxOf b))

variable {keys rep} {a b : K} {n : ℕ}

lemma Represents.ahead_antisymm (h : Represents keys rep) (ha : a ∈ keys) (hb : b ∈ keys)
    (hab : Ahead keys rep a b) (hba : Ahead keys rep b a) : a = b := by
  have hrep : rep a = rep b := by
    rcases hab with hab | hab <;> rcases hba with hba | hba <;> omega
  have heq := h a ha
  rw [hrep, h b hb, Option.some.injEq] at heq
  exact heq.symm

lemma represents_idxOf : Represents keys fun k => keys.idxOf k :=
  fun _ hk => List.getElem?_idxOf hk

/-- Another position may be taken for one of the keys. -/
lemma Represents.update (h : Represents keys rep) {i : ℕ} (hi : keys[i]? = some a) :
    Represents keys (Function.update rep a i) := by
  intro k hk
  by_cases hka : k = a
  · rw [hka, Function.update_self, hi]
  · rw [Function.update_of_ne hka]
    exact h k hk

/-- The first position is the least. -/
lemma idxOf_le {i : ℕ} (h : keys[i]? = some a) : keys.idxOf a ≤ i := by
  obtain ⟨hi, rfl⟩ := List.getElem?_eq_some_iff.mp h
  by_contra hlt
  have hnot := List.not_of_lt_findIdx (p := (· == keys[i])) (not_le.mp hlt)
  simp at hnot

lemma pairwise_rankBy : (rankBy keys rep).Pairwise (Ahead keys rep) := by
  have htotal : Std.Total (Ahead keys rep) := ⟨fun a b => by simp only [Ahead]; omega⟩
  have htrans : IsTrans K (Ahead keys rep) := ⟨fun a b c => by simp only [Ahead]; omega⟩
  exact List.pairwise_insertionSort _ _

lemma perm_rankBy : (rankBy keys rep).Perm keys.dedup := List.perm_insertionSort _ _

@[simp]
lemma mem_rankBy : a ∈ rankBy keys rep ↔ a ∈ keys := by
  rw [perm_rankBy.mem_iff, List.mem_dedup]

@[simp]
lemma mem_ranking : a ∈ ranking keys ↔ a ∈ keys := mem_rankBy

/-- Only one order of the keys is by decreasing count and position. -/
lemma Represents.eq_rankBy (h : Represents keys rep) {order : List K}
    (hperm : order.Perm keys.dedup) (hsorted : order.Pairwise (Ahead keys rep)) :
    order = rankBy keys rep := by
  refine List.Perm.eq_of_pairwise (fun a b ha hb => ?_) hsorted pairwise_rankBy
    (hperm.trans perm_rankBy.symm)
  rw [hperm.mem_iff, List.mem_dedup] at ha
  rw [mem_rankBy] at hb
  exact h.ahead_antisymm ha hb

lemma Represents.rankBy_congr (h : Represents keys rep) {rep' : K → ℕ}
    (heq : ∀ k ∈ keys, rep' k = rep k) : rankBy keys rep' = rankBy keys rep := by
  refine h.eq_rankBy perm_rankBy (pairwise_rankBy.imp_of_mem fun {a b} ha hb hab => ?_)
  rwa [Ahead, heq a (mem_rankBy.mp ha), heq b (mem_rankBy.mp hb)] at hab

/-! ### When the position chosen does not matter -/

lemma Settled.take_rankBy (h : Settled keys n) (hrep : Represents keys rep) :
    (rankBy keys rep).take n = (ranking keys).take n := by
  refine take_eq_take (perm_rankBy.trans perm_rankBy.symm) pairwise_rankBy pairwise_rankBy
    (fun a ha b hb => hrep.ahead_antisymm (mem_rankBy.mp ha) (mem_rankBy.mp hb))
    fun a ha b hb hab => ?_
  rw [mem_ranking] at hb
  have ha' : a ∈ keys := mem_ranking.mp (List.mem_of_mem_take ha)
  rcases hab with hlt | ⟨heq, hle⟩
  · exact Or.inl hlt
  · refine Or.inr ⟨heq, ?_⟩
    rcases hle.lt_or_eq with hlt | hidx
    · have hbefore := h a ha b hb heq hlt (rep a)
        (List.getElem?_eq_some_iff.mp (hrep a ha')).1 (hrep a ha')
      have hfirst := idxOf_le (hrep b hb)
      omega
    · rw [(List.idxOf_inj ha').mp hidx]

/-- **When the head of the ranking does not depend on the positions**: exactly when it is
settled. -/
lemma take_rankBy_iff_settled :
    (∀ rep, Represents keys rep → (rankBy keys rep).take n = (ranking keys).take n)
      ↔ Settled keys n := by
  refine ⟨fun h a ha b hb heq hlt i hi hia => ?_, fun h rep => h.take_rankBy⟩
  have ha' : a ∈ keys := mem_rankBy.mp (List.mem_of_mem_take ha)
  by_contra hnot
  -- `a` is represented by its position after the first one of `b`
  have hrep := represents_idxOf.update hia
  have hne : b ≠ a := by
    rintro rfl
    exact lt_irrefl _ hlt
  have htake := h _ hrep
  have hba : Ahead keys (Function.update (fun k => keys.idxOf k) a i) b a := by
    refine Or.inr ⟨heq.symm, ?_⟩
    rw [Function.update_self, Function.update_of_ne hne]
    omega
  have hnotab : ¬ Ahead keys (Function.update (fun k => keys.idxOf k) a i) a b := fun hab =>
    hne (hrep.ahead_antisymm hb ha' hba hab)
  have hfirst := mem_take_of_before pairwise_rankBy (htake ▸ ha) (mem_rankBy.mpr hb) hnotab
  rw [htake] at hfirst
  have hsorted : ((ranking keys).take n).Pairwise (Ahead keys fun k => keys.idxOf k) :=
    pairwise_rankBy.sublist (List.take_sublist n _)
  have hsorted' : ((ranking keys).take n).Pairwise
      (Ahead keys (Function.update (fun k => keys.idxOf k) a i)) := by
    rw [← htake]
    exact pairwise_rankBy.sublist (List.take_sublist n _)
  rcases pairwise_both hsorted hsorted' ha hfirst hne.symm with ⟨-, hab⟩ | ⟨hba, -⟩
  · exact hnotab hab
  · rcases hba with hcount | ⟨-, hle⟩
    · omega
    · exact absurd hle (not_le.mpr hlt)

end Ranking

end Foundation
