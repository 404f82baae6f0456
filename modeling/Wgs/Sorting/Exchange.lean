import Mathlib.Data.List.ReduceOption
import Wgs.Foundation.Rotations
import Wgs.Foundation.Stability

/-!
The exchange sort of `C/maopao.c`.

`sequence` compares each record with all behind it, and exchanges the two whenever the one behind is
greater: it leaves `b[0..n)` in descending order by key.  On lists, a pass carries a record along
and puts it down at the first greater one, which it carries on (`exchange`).

The records of one key `a` are seen apart from the others in the `word` of the list, which tells
them from the greater ones.  A pass that takes out a greater record puts the first record of the key
into the place of the first greater one, past all of its kind in front of that: a rotation of these.
The rotations cancel out, and the sort is stable, only if for each `l` the number of greater records
with exactly `l` records of the key in front of them is a multiple of `l` (`sequence_stable_iff`).
-/

namespace Wgs.Sorting.Exchange

open Foundation

variable {α β : Type}

/-! ### The program -/

section Program

variable (key : α → ℤ)

/-- `for (j = i + 1; j < n; j++)`, from some `j` on. -/
def exchangePass (n i : ℤ) : ℕ → Cells α × ℤ → Option (Cells α × ℤ) :=
  whileLoop
    (fun (_, j) => return j < n)
    (fun _ (b, j) => do
      if key (← b.load i) < key (← b.load j) then
        let temp ← b.load j
        let b ← b.store j (← b.load i)
        let b ← b.store i temp
        return (b, j + 1)
      else return (b, j + 1))

/-- `for (i = 0; i < n; i++)`, from some `i` on. -/
def exchangeLoop (n : ℤ) : ℕ → Cells α × ℤ → Option (Cells α × ℤ) :=
  whileLoop
    (fun (_, i) => return i < n)
    (fun fuel (b, i) => do
      let (b, _) ← exchangePass key n i fuel (b, i + 1)
      return (b, i + 1))

/-- `sequence`. -/
def sequence (fuel : ℕ) (b : Cells α) (n : ℤ) : Option (Cells α) := do
  let (b, _) ← exchangeLoop key n fuel (b, 0)
  return b

end Program

/-! ### The passes on lists -/

/-- Carries `c` along the list, and whenever a greater record comes puts it down in its place and
carries that one; returns the last one carried and the list. -/
def exchange (key : α → ℤ) (c : α) : List α → α × List α
  | [] => (c, [])
  | y :: ys =>
      if key c < key y then ((exchange key y ys).1, c :: (exchange key y ys).2)
      else ((exchange key c ys).1, y :: (exchange key c ys).2)

section Lists

variable {key : α → ℤ} {c x y : α} {xs ys : List α}

lemma exchange_of_lt (h : key c < key y) :
    exchange key c (y :: ys) = ((exchange key y ys).1, c :: (exchange key y ys).2) := by
  rw [exchange, if_pos h]

lemma exchange_of_le (h : ¬ key c < key y) :
    exchange key c (y :: ys) = ((exchange key c ys).1, y :: (exchange key c ys).2) := by
  rw [exchange, if_neg h]

lemma exchange_perm : ((exchange key c ys).1 :: (exchange key c ys).2).Perm (c :: ys) := by
  induction ys generalizing c with
  | nil => exact .refl _
  | cons y ys ih =>
      by_cases h : key c < key y
      · rw [exchange_of_lt h]
        exact (List.Perm.swap _ _ _).trans ((ih.cons c))
      · rw [exchange_of_le h]
        exact (List.Perm.swap _ _ _).trans ((ih.cons y).trans (.swap _ _ _))

@[simp] lemma length_exchange : (exchange key c ys).2.length = ys.length := by
  have hlen : ((exchange key c ys).1 :: (exchange key c ys).2).length = (c :: ys).length :=
    exchange_perm.length_eq
  simpa using hlen

/-- The last record carried is the greatest. -/
lemma le_exchange : ∀ x ∈ c :: ys, key x ≤ key (exchange key c ys).1 := by
  induction ys generalizing c with
  | nil =>
      intro x hx
      rw [List.mem_singleton.mp hx]
      rfl
  | cons y ys ih =>
      intro x hx
      by_cases h : key c < key y
      · rw [exchange_of_lt h]
        rcases List.mem_cons.mp hx with rfl | hx
        · exact h.le.trans (ih y List.mem_cons_self)
        · exact ih x hx
      · rw [exchange_of_le h]
        rcases List.mem_cons.mp hx with rfl | hx
        · exact ih x List.mem_cons_self
        · rcases List.mem_cons.mp hx with rfl | hx
          · exact (not_lt.mp h).trans (ih c List.mem_cons_self)
          · exact ih x (List.mem_cons_of_mem _ hx)

end Lists

/-- One pass after the other. -/
def exchangeSort (key : α → ℤ) : List α → List α
  | [] => []
  | x :: xs => (exchange key x xs).1 :: exchangeSort key (exchange key x xs).2
termination_by xs => xs.length
decreasing_by simp

section Sorting

variable {key : α → ℤ} {x : α} {xs : List α}

lemma exchangeSort_cons :
    exchangeSort key (x :: xs)
      = (exchange key x xs).1 :: exchangeSort key (exchange key x xs).2 := by
  rw [exchangeSort]

lemma exchangeSort_perm : (exchangeSort key xs).Perm xs := by
  induction xs using exchangeSort.induct key with
  | case1 =>
      rw [exchangeSort]
  | case2 x xs ih =>
      rw [exchangeSort_cons]
      exact (ih.cons _).trans exchange_perm

/-- The passes leave the records in descending order. -/
lemma exchangeSort_descending : Ascending (fun x => -key x) (exchangeSort key xs) := by
  induction xs using exchangeSort.induct key with
  | case1 =>
      rw [exchangeSort]
      exact .nil
  | case2 x xs ih =>
      rw [exchangeSort_cons]
      refine List.pairwise_cons.mpr ⟨fun y hy => ?_, ih⟩
      have hmem : y ∈ x :: xs :=
        exchange_perm.subset (List.mem_cons_of_mem _ (exchangeSort_perm.subset hy))
      exact neg_le_neg (le_exchange y hmem)

lemma exchange_map (f : β → α) (c : β) (ys : List β) :
    exchange key (f c) (ys.map f)
      = (f (exchange (key ∘ f) c ys).1, (exchange (key ∘ f) c ys).2.map f) := by
  induction ys generalizing c with
  | nil => rfl
  | cons y ys ih =>
      rw [List.map_cons]
      by_cases h : key (f c) < key (f y)
      · have h' : (key ∘ f) c < (key ∘ f) y := h
        rw [exchange_of_lt h, exchange_of_lt h', ih, List.map_cons]
      · have h' : ¬ (key ∘ f) c < (key ∘ f) y := h
        rw [exchange_of_le h, exchange_of_le h', ih, List.map_cons]

/-- Only the keys matter. -/
lemma exchangeSort_map (f : β → α) (ys : List β) :
    exchangeSort key (ys.map f) = (exchangeSort (key ∘ f) ys).map f := by
  induction ys using exchangeSort.induct (key ∘ f) with
  | case1 => rw [exchangeSort, List.map_nil, exchangeSort]
  | case2 y ys ih =>
      rw [List.map_cons, exchangeSort_cons, exchange_map, exchangeSort_cons, List.map_cons, ih]

end Sorting

/-! ### The records of one key -/

/-- The records of the key `a`, and marks in the places of those with greater keys. -/
def word (key : α → ℤ) (a : ℤ) (xs : List α) : List (Option α) :=
  xs.filterMap fun x =>
    if key x = a then some (some x) else if a < key x then some none else none

/-- Puts the record in the place of the first mark. -/
def fill (x : α) : List (Option α) → List (Option α)
  | [] => []
  | none :: w => some x :: w
  | some y :: w => some y :: fill x w

/-- What a pass does to a word. -/
def shorten : List (Option α) → List (Option α)
  | [] => []
  | none :: w => w
  | some x :: w => fill x w

/-- How many records there are in front of each mark, after `c` other ones. -/
def runs (c : ℕ) : List (Option α) → List ℕ
  | [] => []
  | none :: w => c :: runs c w
  | some _ :: w => runs (c + 1) w

section Words

variable {key : α → ℤ} {a : ℤ} {c x : α} {xs ys : List α} {w w' : List (Option α)} {k : ℕ}

lemma word_cons_of_eq (h : key x = a) : word key a (x :: xs) = some x :: word key a xs := by
  rw [word, List.filterMap_cons_some (b := some x) (by rw [if_pos h])]
  rfl

lemma word_cons_of_gt (h : a < key x) : word key a (x :: xs) = none :: word key a xs := by
  rw [word, List.filterMap_cons_some (b := none) (by rw [if_neg h.ne', if_pos h])]
  rfl

lemma word_cons_of_lt (h : key x < a) : word key a (x :: xs) = word key a xs := by
  rw [word, List.filterMap_cons_none (by rw [if_neg h.ne, if_neg h.not_gt])]
  rfl

lemma word_append : word key a (xs ++ ys) = word key a xs ++ word key a ys :=
  List.filterMap_append

lemma reduceOption_word : (word key a xs).reduceOption = xs.filter fun x => key x = a := by
  induction xs with
  | nil => rfl
  | cons x xs ih =>
      rcases lt_trichotomy (key x) a with h | h | h
      · rw [word_cons_of_lt h, ih, List.filter_cons_of_neg (by simpa using h.ne)]
      · rw [word_cons_of_eq h, List.reduceOption_cons_of_some, ih,
          List.filter_cons_of_pos (by simpa using h)]
      · rw [word_cons_of_gt h, List.reduceOption_cons_of_none, ih,
          List.filter_cons_of_neg (by simpa using h.ne')]

/-- A greater record is carried: those of the key stay where they are. -/
lemma word_exchange_of_gt (h : a < key c) : word key a (exchange key c ys).2 = word key a ys := by
  induction ys generalizing c with
  | nil => rfl
  | cons y ys ih =>
      by_cases hcy : key c < key y
      · rw [exchange_of_lt hcy, word_cons_of_gt h, word_cons_of_gt (h.trans hcy), ih (h.trans hcy)]
      · rw [exchange_of_le hcy]
        rcases lt_trichotomy (key y) a with hy | hy | hy
        · rw [word_cons_of_lt hy, word_cons_of_lt hy, ih h]
        · rw [word_cons_of_eq hy, word_cons_of_eq hy, ih h]
        · rw [word_cons_of_gt hy, word_cons_of_gt hy, ih h]

/-- A record of the key is carried, up to the first greater one. -/
lemma word_exchange_of_eq (h : key c = a) :
    word key a (exchange key c ys).2 = fill c (word key a ys) := by
  induction ys with
  | nil => rfl
  | cons y ys ih =>
      rcases lt_trichotomy (key y) a with hy | hy | hy
      · rw [exchange_of_le (by omega), word_cons_of_lt hy, word_cons_of_lt hy, ih]
      · rw [exchange_of_le (by omega), word_cons_of_eq hy, word_cons_of_eq hy, ih, fill]
      · rw [exchange_of_lt (by omega), word_cons_of_eq h, word_cons_of_gt hy,
          word_exchange_of_gt hy, fill]

/-- **A pass, as the word sees it.** -/
lemma word_exchange : word key a (exchange key c ys).2 = shorten (word key a (c :: ys)) := by
  induction ys generalizing c with
  | nil =>
      rcases lt_trichotomy (key c) a with h | h | h
      · rw [word_cons_of_lt h]
        rfl
      · rw [word_cons_of_eq h]
        rfl
      · rw [word_cons_of_gt h]
        rfl
  | cons y ys ih =>
      rcases lt_trichotomy (key c) a with h | h | h
      · rw [word_cons_of_lt h]
        by_cases hcy : key c < key y
        · rw [exchange_of_lt hcy, word_cons_of_lt h, ih]
        · have hy : key y < a := by omega
          rw [exchange_of_le hcy, word_cons_of_lt hy, word_cons_of_lt hy, ih, word_cons_of_lt h]
      · rw [word_exchange_of_eq h, word_cons_of_eq h, shorten]
      · rw [word_exchange_of_gt h, word_cons_of_gt h, shorten]

lemma fill_of_notMem (h : none ∉ w) : fill x w = w := by
  induction w with
  | nil => rfl
  | cons y w ih =>
      cases y with
      | none => exact absurd List.mem_cons_self h
      | some y => rw [fill, ih fun hmem => h (List.mem_cons_of_mem _ hmem)]

/-- The records in front of the first mark. -/
lemma exists_first_mark (h : none ∈ w) :
    ∃ (ys : List α) (w' : List (Option α)), w = ys.map some ++ none :: w' := by
  induction w with
  | nil => cases h
  | cons y w ih =>
      cases y with
      | none => exact ⟨[], w, rfl⟩
      | some y =>
          obtain ⟨ys, w', rfl⟩ :=
            ih ((List.mem_cons.mp h).resolve_left (Option.some_ne_none y).symm)
          exact ⟨y :: ys, w', rfl⟩

lemma fill_append : fill x (ys.map some ++ none :: w) = (ys ++ [x]).map some ++ w := by
  induction ys with
  | nil => rfl
  | cons y ys ih =>
      rw [List.map_cons, List.cons_append, fill, ih]
      rfl

/-- The first mark goes, and the records in front of it are rotated. -/
lemma shorten_append : shorten (ys.map some ++ none :: w) = (ys.rotate 1).map some ++ w := by
  cases ys with
  | nil => rfl
  | cons y ys =>
      rw [List.map_cons, List.cons_append, shorten, fill_append, List.rotate_cons_succ,
        List.rotate_zero]

lemma reduceOption_map_some : (ys.map some).reduceOption = ys := by
  induction ys with
  | nil => rfl
  | cons y ys ih => rw [List.map_cons, List.reduceOption_cons_of_some, ih]

lemma runs_append : runs k (w ++ w') = runs k w ++ runs (k + w.reduceOption.length) w' := by
  induction w generalizing k with
  | nil => rfl
  | cons y w ih =>
      cases y with
      | none => rw [List.cons_append, runs, ih, runs, List.reduceOption_cons_of_none]; rfl
      | some y =>
          rw [List.cons_append, runs, ih, runs, List.reduceOption_cons_of_some, List.length_cons]
          congr 2
          omega

lemma runs_of_notMem (h : none ∉ w) : runs k w = [] := by
  induction w generalizing k with
  | nil => rfl
  | cons y w ih =>
      cases y with
      | none => exact absurd List.mem_cons_self h
      | some y => rw [runs, ih fun hmem => h (List.mem_cons_of_mem _ hmem)]

lemma runs_sorted : (runs k w).Pairwise (· ≤ ·)
    ∧ ∀ l ∈ runs k w, k ≤ l ∧ l ≤ k + w.reduceOption.length := by
  induction w generalizing k with
  | nil => exact ⟨.nil, fun l hl => by cases hl⟩
  | cons y w ih =>
      cases y with
      | none =>
          rw [runs, List.reduceOption_cons_of_none]
          obtain ⟨hsorted, hle⟩ := ih (k := k)
          refine ⟨List.pairwise_cons.mpr ⟨fun l hl => (hle l hl).1, hsorted⟩, ?_⟩
          exact List.forall_mem_cons.mpr ⟨⟨le_rfl, Nat.le_add_right _ _⟩, hle⟩
      | some y =>
          rw [runs, List.reduceOption_cons_of_some, List.length_cons]
          obtain ⟨hsorted, hle⟩ := ih (k := k + 1)
          refine ⟨hsorted, fun l hl => ?_⟩
          obtain ⟨hkl, hlk⟩ := hle l hl
          omega

lemma runs_word_map (f : β → α) (ys : List β) :
    runs k (word key a (ys.map f)) = runs k (word (key ∘ f) a ys) := by
  induction ys generalizing k with
  | nil => rfl
  | cons y ys ih =>
      rw [List.map_cons]
      rcases lt_trichotomy (key (f y)) a with h | h | h
      · have h' : (key ∘ f) y < a := h
        rw [word_cons_of_lt h, word_cons_of_lt h', ih]
      · have h' : (key ∘ f) y = a := h
        rw [word_cons_of_eq h, word_cons_of_eq h', runs, runs, ih]
      · have h' : a < (key ∘ f) y := h
        rw [word_cons_of_gt h, word_cons_of_gt h', runs, runs, ih]

/-- How often a number comes among the runs. -/
lemma count_runs (f : ℕ → α) (m l : ℕ) :
    (runs 0 (word key a ((List.range m).map f))).count l = (List.range m).countP fun j =>
      a < key (f j) ∧ (List.range j).countP (fun i => key (f i) = a) = l := by
  induction m with
  | zero => rfl
  | succ m ih =>
      have hlen : (word key a ((List.range m).map f)).reduceOption.length
          = (List.range m).countP fun i => key (f i) = a := by
        rw [reduceOption_word, ← List.countP_eq_length_filter, List.countP_map]
        rfl
      rw [List.range_succ, List.map_append, List.map_singleton, word_append, runs_append,
        List.count_append, ih, List.countP_append, hlen, Nat.zero_add]
      congr 1
      rcases lt_trichotomy (key (f m)) a with h | h | h
      · rw [word_cons_of_lt h]
        simp [word, runs, h.not_gt]
      · rw [word_cons_of_eq h]
        simp [word, runs, h]
      · rw [word_cons_of_gt h]
        simp [word, runs, h, List.count_singleton]

/-- A pass over a word with a mark rotates the records in front of the first one. -/
lemma runs_shorten (h : none ∈ w) : ∃ l, runs 0 w = l :: runs 0 (shorten w)
    ∧ (shorten w).reduceOption = rotatePrefix w.reduceOption l := by
  obtain ⟨ys, w', rfl⟩ := exists_first_mark h
  have hys : ∀ k, runs k (ys.map some) = [] := fun k => runs_of_notMem (by simp)
  have hrot : ∀ k, runs k ((ys.rotate 1).map some) = [] := fun k => runs_of_notMem (by simp)
  refine ⟨ys.length, ?_, ?_⟩
  · rw [shorten_append, runs_append, runs_append, hys, hrot, reduceOption_map_some,
      reduceOption_map_some, List.nil_append, List.nil_append, runs, List.length_rotate,
      Nat.zero_add]
  · rw [shorten_append, List.reduceOption_append, List.reduceOption_append, reduceOption_map_some,
      reduceOption_map_some, List.reduceOption_cons_of_none, rotatePrefix, List.take_left,
      List.drop_left]

/-- With a greater record in the list, a greater one is taken out. -/
lemma lt_key_exchange (hmark : none ∈ word key a (c :: ys)) : a < key (exchange key c ys).1 := by
  obtain ⟨z, hz, hnone⟩ := List.mem_filterMap.mp hmark
  split_ifs at hnone with hza hza'
  · cases hnone
  · exact lt_of_lt_of_le hza' (le_exchange z hz)

/-- Without one, the first record of the key is taken out, if there is one. -/
lemma exchange_eq_of_word (hword : word key a (c :: ys) = some x :: w) (hmark : none ∉ w) :
    key (exchange key c ys).1 = a ∧ (exchange key c ys).1 = x := by
  have hrest : (exchange key c ys).2.filter (fun x => key x = a) = w.reduceOption := by
    rw [← reduceOption_word, word_exchange, hword, show shorten (some x :: w) = w from
      fill_of_notMem hmark]
  have hperm : (((exchange key c ys).1 :: (exchange key c ys).2).filter fun x => key x = a).Perm
      (x :: w.reduceOption) := by
    rw [← List.reduceOption_cons_of_some, ← hword, reduceOption_word]
    exact exchange_perm.filter _
  have heq : key (exchange key c ys).1 = a := by
    by_contra hne
    rw [List.filter_cons_of_neg (by simpa using hne), hrest] at hperm
    have hlen := hperm.length_eq
    rw [List.length_cons] at hlen
    omega
  rw [List.filter_cons_of_pos (by simpa using heq), hrest] at hperm
  have hcons : (exchange key c ys).1 ::ₘ (w.reduceOption : Multiset α) = x ::ₘ ↑w.reduceOption :=
    Multiset.coe_eq_coe.mpr hperm
  exact ⟨heq, (Multiset.cons_inj_left _).mp hcons⟩

/-- **The records of one key after all passes**: one rotation for each greater record. -/
theorem filter_exchangeSort (a : ℤ) (xs : List α) :
    (exchangeSort key xs).filter (fun x => key x = a)
      = (runs 0 (word key a xs)).foldl rotatePrefix (xs.filter fun x => key x = a) := by
  induction xs using exchangeSort.induct key with
  | case1 =>
      rw [exchangeSort]
      rfl
  | case2 c ys ih =>
      have hgroup : (c :: ys).filter (fun x => key x = a) = (word key a (c :: ys)).reduceOption :=
        reduceOption_word.symm
      have hrest : (exchange key c ys).2.filter (fun x => key x = a)
          = (shorten (word key a (c :: ys))).reduceOption := by
        rw [← word_exchange, reduceOption_word]
      rw [word_exchange, hrest] at ih
      rw [exchangeSort_cons, hgroup]
      by_cases hmark : none ∈ word key a (c :: ys)
      · -- the record taken out is a greater one
        obtain ⟨l, hruns, hrotate⟩ := runs_shorten hmark
        rw [List.filter_cons_of_neg (by simpa using (lt_key_exchange hmark).ne'), ih, hruns,
          hrotate, List.foldl_cons]
      · -- the record taken out is the first of the key, if there is one
        rw [runs_of_notMem hmark, List.foldl_nil]
        cases hword : word key a (c :: ys) with
        | nil =>
            have hne : key (exchange key c ys).1 ≠ a := fun heq => by
              have hmem : (exchange key c ys).1 ∈ (c :: ys).filter fun x => key x = a :=
                List.mem_filter.mpr
                  ⟨exchange_perm.mem_iff.mp List.mem_cons_self, by simpa using heq⟩
              rw [hgroup, hword] at hmem
              cases hmem
            rw [List.filter_cons_of_neg (by simpa using hne), ih, hword]
            rfl
        | cons o w =>
            cases o with
            | none => exact absurd (hword ▸ List.mem_cons_self) hmark
            | some x =>
                have hmark' : none ∉ w := fun hmem => hmark (hword ▸ List.mem_cons_of_mem _ hmem)
                have hshorten : shorten (some x :: w) = w := fill_of_notMem hmark'
                obtain ⟨heq, hx⟩ := exchange_eq_of_word hword hmark'
                rw [hword, hshorten, runs_of_notMem hmark', List.foldl_nil] at ih
                rw [List.filter_cons_of_pos (by simpa using heq), ih, hx,
                  List.reduceOption_cons_of_some]

/-- The records of one key keep their order exactly when their rotations cancel out. -/
lemma stable_iff {xs : List α} {g : ℤ → ℕ → ℕ} (hxs : xs.Nodup)
    (hcount : ∀ a l, (runs 0 (word key a xs)).count l = g a l) :
    StablySorted (fun x => -key x) xs (exchangeSort key xs) ↔ ∀ a l, 1 ≤ l → l ∣ g a l := by
  have hgroup : ∀ a, (exchangeSort key xs).filter (fun x => key x = a)
        = xs.filter (fun x => key x = a) ↔ ∀ l, 1 ≤ l → l ∣ g a l := by
    intro a
    obtain ⟨hsorted, hle⟩ := runs_sorted (k := 0) (w := word key a xs)
    rw [filter_exchangeSort, foldl_rotatePrefix_eq_iff (hxs.filter _) hsorted fun l hl => ?_]
    · simp only [hcount]
    · have hl' := (hle l hl).2
      rwa [reduceOption_word, Nat.zero_add] at hl'
  have hneg : ∀ (a : ℤ) (ys : List α),
      ys.filter (fun x => -key x = a) = ys.filter fun x => key x = -a := fun a ys =>
    List.filter_congr fun x _ => decide_eq_decide.mpr neg_eq_iff_eq_neg
  constructor
  · intro h a
    refine (hgroup a).mp ?_
    have hstable := h.stable (-a)
    rwa [hneg, hneg, neg_neg] at hstable
  · intro h
    refine ⟨exchangeSort_perm, exchangeSort_descending, fun a => ?_⟩
    rw [hneg, hneg]
    exact (hgroup (-a)).mpr (h (-a))

end Words

/-! ### The array -/

section Arrays

variable [Inhabited α] {key : α → ℤ} {b b' : Cells α} {n i j : ℤ}

/-- One step of a pass, as an equation of what is done and what remains. -/
lemma exchange_step (hi : 0 ≤ i) (hij : i < j) (hjn : j < n) (hn : n ≤ b.length)
    (hlen : b'.length = b.length) (hcell : b'.cell = if key (b.cell i) < key (b.cell j)
      then b.cell ∘ Equiv.swap j i else b.cell) :
    ((exchange key (b'.cell i) (b'.segment (j + 1) (n - 1))).1,
      b'.segment (i + 1) j ++ (exchange key (b'.cell i) (b'.segment (j + 1) (n - 1))).2)
    = ((exchange key (b.cell i) (b.segment j (n - 1))).1,
      b.segment (i + 1) (j - 1) ++ (exchange key (b.cell i) (b.segment j (n - 1))).2) := by
  have hkeep : ∀ k, k ≠ i → k ≠ j → b'.cell k = b.cell k := by
    intro k hki hkj
    rw [hcell]
    split_ifs
    · rw [Function.comp_apply, Equiv.swap_apply_of_ne_of_ne hkj hki]
    · rfl
  have hrest : b'.segment (j + 1) (n - 1) = b.segment (j + 1) (n - 1) :=
    Cells.segment_congr (by omega) (by omega) hlen fun k hk _ => hkeep k (by omega) (by omega)
  have hdone : b'.segment (i + 1) j = b.segment (i + 1) (j - 1) ++ [b'.cell j] := by
    have hinit : b'.segment (i + 1) (j - 1) = b.segment (i + 1) (j - 1) :=
      Cells.segment_congr (by omega) (by omega) hlen fun k _ hk => hkeep k (by omega) (by omega)
    have happend := Cells.segment_append (s := b') (l := i + 1) (m := j - 1) (r := j) (by omega)
      (by omega) (by omega)
    rw [sub_add_cancel, Cells.segment_self (by omega) (by omega), hinit] at happend
    exact happend.symm
  rw [hrest, hdone, Cells.segment_cons (l := j) (by omega) (by omega) (by omega), hcell]
  split_ifs with hlt
  · rw [exchange_of_lt hlt, Function.comp_apply, Function.comp_apply, Equiv.swap_apply_left,
      Equiv.swap_apply_right, List.append_assoc, List.singleton_append]
  · rw [exchange_of_le hlt, List.append_assoc, List.singleton_append]

/-- A pass over the array is one over the list. -/
lemma exchangePass_ends (hi : 0 ≤ i) (hin : i < n) (hn : n ≤ b.length) :
    Ends (fun fuel => exchangePass key n i fuel (b, i + 1)) fun r => r.1.length = b.length
      ∧ r.1.cell i = (exchange key (b.cell i) (b.segment (i + 1) (n - 1))).1
      ∧ r.1.segment (i + 1) (n - 1) = (exchange key (b.cell i) (b.segment (i + 1) (n - 1))).2
      ∧ ∀ k, k ∉ Set.Icc i (n - 1) → r.1.load k = b.load k := by
  refine Ends.whileLoop
    (I := fun r => r.1.length = b.length ∧ i < r.2 ∧ r.2 ≤ n
      ∧ ((exchange key (r.1.cell i) (r.1.segment r.2 (n - 1))).1, r.1.segment (i + 1) (r.2 - 1)
          ++ (exchange key (r.1.cell i) (r.1.segment r.2 (n - 1))).2)
        = exchange key (b.cell i) (b.segment (i + 1) (n - 1))
      ∧ ∀ k, k ∉ Set.Icc i (n - 1) → r.1.load k = b.load k)
    (fun r => (n - r.2).toNat) (fun r hr => ?_)
    ⟨rfl, by dsimp only; omega, by dsimp only; omega, ?_, fun _ _ => rfl⟩
  · obtain ⟨b', j⟩ := r
    obtain ⟨hlen, hij, hjn, hdone, hframe⟩ := hr
    dsimp only at *
    by_cases hj : j < n
    · refine Or.inl ⟨by simp [hj], Ends.load (by omega) (by omega)
        (Ends.load (by omega) (by omega) ?_)⟩
      by_cases hlt : key (b'.cell i) < key (b'.cell j)
      · simp only [if_pos hlt]
        refine Ends.load (by omega) (by omega) (Ends.load (by omega) (by omega)
          (Ends.store (by omega) (by omega) fun b₁ hlen₁ hb₁ =>
            Ends.store (by omega) (by omega) fun b₂ hlen₂ hb₂ => ?_))
        rw [hb₁, update_eq_swap] at hb₂
        have hstep := exchange_step hi hij hj (by omega) (hlen₂.trans hlen₁)
          (by rw [if_pos hlt, hb₂])
        refine .of_eq (fun _ => rfl) ⟨⟨by dsimp only; omega, by dsimp only; omega,
          by dsimp only; omega, ?_, fun k hk => ?_⟩, by dsimp only; omega⟩
        · dsimp only
          rw [add_sub_cancel_right, hstep, hdone]
        · have hki : k ≠ i := by
            rintro rfl
            exact hk ⟨le_rfl, by omega⟩
          have hkj : k ≠ j := by
            rintro rfl
            exact hk ⟨by omega, by omega⟩
          refine (Cells.load_eq_of_cell (hlen₂.trans hlen₁) ?_).trans (hframe k hk)
          rw [hb₂, Function.comp_apply, Equiv.swap_apply_of_ne_of_ne hkj hki]
      · simp only [if_neg hlt]
        have hsame : b'.cell = if key (b'.cell i) < key (b'.cell j)
            then b'.cell ∘ Equiv.swap j i else b'.cell := by rw [if_neg hlt]
        have hstep := exchange_step hi hij hj (by omega) rfl hsame
        refine .of_eq (fun _ => rfl) ⟨⟨hlen, by dsimp only; omega, by dsimp only; omega, ?_,
          hframe⟩, by dsimp only; omega⟩
        dsimp only
        rw [add_sub_cancel_right, hstep, hdone]
    · obtain rfl : j = n := by omega
      rw [Cells.segment_of_lt (show j - 1 < j by omega)] at hdone
      refine Or.inr ⟨by simp, hlen, ?_, ?_, hframe⟩ <;> rw [← hdone]
      · rfl
      · rw [exchange, List.append_nil]
  · dsimp only
    rw [add_sub_cancel_right, Cells.segment_of_lt (show i < i + 1 by omega), List.nil_append]

/-- **The passes on the array are the passes on the list.** -/
lemma sequence_ends (hn₀ : 0 ≤ n) (hn : n ≤ b.length) :
    Ends (fun fuel => sequence key fuel b n) fun t => t.length = b.length
      ∧ t.segment 0 (n - 1) = exchangeSort key (b.segment 0 (n - 1))
      ∧ ∀ k, k ∉ Set.Icc 0 (n - 1) → t.load k = b.load k := by
  have hloop : Ends (fun fuel => exchangeLoop key n fuel (b, 0)) fun r => r.1.length = b.length
      ∧ r.1.segment 0 (n - 1) = exchangeSort key (b.segment 0 (n - 1))
      ∧ ∀ k, k ∉ Set.Icc 0 (n - 1) → r.1.load k = b.load k := by
    refine Ends.whileLoop
      (I := fun r => r.1.length = b.length ∧ 0 ≤ r.2 ∧ r.2 ≤ n
        ∧ r.1.segment 0 (r.2 - 1) ++ exchangeSort key (r.1.segment r.2 (n - 1))
          = exchangeSort key (b.segment 0 (n - 1))
        ∧ ∀ k, k ∉ Set.Icc 0 (n - 1) → r.1.load k = b.load k)
      (fun r => (n - r.2).toNat) (fun r hr => ?_)
      ⟨rfl, le_rfl, hn₀, by rw [Cells.segment_of_lt (by dsimp only; omega), List.nil_append],
        fun _ _ => rfl⟩
    obtain ⟨b', i⟩ := r
    obtain ⟨hlen, hi, hin, hdone, hframe⟩ := hr
    dsimp only at *
    by_cases hlt : i < n
    · refine Or.inl ⟨by simp [hlt], ?_⟩
      refine (exchangePass_ends hi hlt (by omega)).bind
        fun ⟨b'', j⟩ ⟨hlen', hcell, hseg, hframe'⟩ => ?_
      dsimp only at *
      refine .of_eq (fun _ => rfl) ⟨⟨hlen'.trans hlen, by dsimp only; omega, by dsimp only; omega,
        ?_, fun k hk => ?_⟩, by dsimp only; omega⟩
      · dsimp only
        have hinit : b''.segment 0 (i - 1) = b'.segment 0 (i - 1) := by
          refine Cells.segment_congr le_rfl (by omega) hlen' fun k _ hk => ?_
          exact Cells.cell_eq_of_load (hframe' k fun hmem => by have := hmem.1; omega)
        have happend := Cells.segment_append (s := b'') (l := 0) (m := i - 1) (r := i) le_rfl
          (by omega) (by omega)
        rw [sub_add_cancel, Cells.segment_self hi (by omega), hinit, hcell] at happend
        rw [add_sub_cancel_right, ← happend, hseg, List.append_assoc, List.singleton_append,
          ← exchangeSort_cons, ← Cells.segment_cons hi (by omega) (by omega), hdone]
      · refine (hframe' k fun hmem => hk ⟨hi.trans hmem.1, hmem.2⟩).trans (hframe k hk)
    · obtain rfl : i = n := by omega
      rw [Cells.segment_of_lt (show i - 1 < i by omega), exchangeSort, List.append_nil] at hdone
      exact Or.inr ⟨by simp, hlen, hdone, hframe⟩
  exact hloop.bind fun ⟨t, i⟩ ht => .of_eq (fun _ => rfl) ht

/-- `sequence` sorts in descending order. -/
theorem sequence_sorts (hn₀ : 0 ≤ n) (hn : n ≤ b.length) :
    ∃ t, Returns (fun fuel => sequence key fuel b n) t
      ∧ SortedByKey (fun x => -key x) 0 (n - 1) b t := by
  obtain ⟨t, ht, hlen, hseg, hframe⟩ := sequence_ends hn₀ hn
  exact ⟨t, ht, hlen, hseg ▸ exchangeSort_perm, hseg ▸ exchangeSort_descending, hframe⟩

/-- How many of the first `n` records have a key greater than `a`, and exactly `l` records of the
key `a` in front of them. -/
def greaterBehind (key : α → ℤ) (b : Cells α) (n a : ℤ) (l : ℕ) : ℕ :=
  (List.range n.toNat).countP fun j : ℕ =>
    a < key (b.cell j) ∧ (List.range j).countP (fun i : ℕ => key (b.cell i) = a) = l

/-- **Stability of the exchange sort**: with the records told apart by the places that they start
from, `sequence` returns, in descending order, those of one key in their original order, exactly
when for each key `a` and each `l` the number of greater records with `l` records of the key in
front of them is a multiple of `l`. -/
theorem sequence_stable_iff (hn₀ : 0 ≤ n) (hn : n ≤ b.length) :
    (∃ t : Cells (α × ℕ), Returns (fun fuel => sequence (key ∘ Prod.fst) fuel b.zipIdx n) t
      ∧ StablySortedIn (fun x => -key x.1) 0 (n - 1) b.zipIdx t
      ∧ Returns (fun fuel => sequence key fuel b n) (t.map Prod.fst))
    ↔ ∀ a l, 1 ≤ l → l ∣ greaterBehind key b n a l := by
  set c : Cells (α × ℕ) := b.zipIdx with hc
  have hfst : c.map Prod.fst = b := List.zipIdx_map_fst 0 b
  have hlen : c.length = b.length := List.length_zipIdx
  have hsegment : (c.segment 0 (n - 1)).map Prod.fst = b.segment 0 (n - 1) := by
    rw [← Cells.segment_map, hfst]
  have hnodup : (c.segment 0 (n - 1)).Nodup := by
    have hsnd : (c.map Prod.snd).Nodup := by
      rw [hc, List.zipIdx_map_snd]
      exact List.nodup_range'
    exact (hsnd.of_map Prod.snd).sublist ((List.take_sublist _ _).trans (List.drop_sublist _ _))
  have hcount : ∀ a l, (runs 0 (word (key ∘ Prod.fst) a (c.segment 0 (n - 1)))).count l
      = greaterBehind key b n a l := by
    intro a l
    rw [← runs_word_map, hsegment, Cells.segment_eq le_rfl (by omega), count_runs, greaterBehind]
    simp only [zero_add, sub_add_cancel, sub_zero]
  have hc₀ : n ≤ c.length := hlen ▸ hn
  have hends : Ends (fun fuel => sequence (key ∘ Prod.fst) fuel c n) _ := sequence_ends hn₀ hc₀
  obtain ⟨t, ht, htlen, htseg, htframe⟩ := hends
  have hiff := stable_iff hnodup hcount
  constructor
  · rintro ⟨t', ht', hsorted, -⟩
    obtain rfl := ht.unique ht'
    have hstable := hsorted.sorted
    rw [htseg] at hstable
    exact hiff.mp hstable
  · intro hdvd
    refine ⟨t, ht, ⟨htlen, htseg ▸ hiff.mpr hdvd, htframe⟩, ?_⟩
    -- the keys do not depend on the places
    have hends' : Ends (fun fuel => sequence key fuel b n) _ := sequence_ends hn₀ hn
    obtain ⟨u, hu, -, huseg, huframe⟩ := hends'
    have heq : t.map Prod.fst = u := by
      refine Cells.ext_segment (l := 0) (r := n - 1) le_rfl ?_ fun i hi => ?_
      · rw [Cells.segment_map, htseg, ← exchangeSort_map, hsegment, huseg]
      · rw [Cells.load_map, htframe i hi, huframe i hi, ← Cells.load_map, hfst]
    exact heq ▸ hu

/-- The theorem at an array whose two equal records pass by each other twice. -/
theorem sequence_stable_four :
    (∃ t : Cells (ℤ × ℕ),
      Returns (fun fuel => sequence (id ∘ Prod.fst) fuel (List.zipIdx [1, 1, 2, 3]) 4) t
      ∧ StablySortedIn (fun x => -id x.1) 0 (4 - 1) (List.zipIdx [1, 1, 2, 3]) t
      ∧ Returns (fun fuel => sequence id fuel [1, 1, 2, 3] 4) (t.map Prod.fst))
    ↔ ∀ a l, 1 ≤ l → l ∣ greaterBehind id [1, 1, 2, 3] 4 a l :=
  sequence_stable_iff (by decide) (by decide)

/-- Two equal records in front of a greater one change places. -/
theorem sequence_stable_fails :
    ¬ ∃ t : Cells (ℤ × ℕ),
      Returns (fun fuel => sequence (id ∘ Prod.fst) fuel (List.zipIdx [1, 1, 2]) 3) t
      ∧ StablySortedIn (fun x => -id x.1) 0 (3 - 1) (List.zipIdx [1, 1, 2]) t := by
  rintro ⟨t, ht, hsorted⟩
  have hret : Returns (fun fuel => sequence (id ∘ Prod.fst) fuel (List.zipIdx [1, 1, 2]) 3)
      [(2, 2), (1, 1), (1, 0)] :=
    ⟨4, fun fuel hfuel => by
      obtain ⟨fuel, rfl⟩ : ∃ k, fuel = k + 4 := ⟨fuel - 4, by omega⟩
      rfl⟩
  obtain rfl := ht.unique hret
  have hstable := hsorted.sorted.stable (-1)
  revert hstable
  decide

end Arrays

end Wgs.Sorting.Exchange
