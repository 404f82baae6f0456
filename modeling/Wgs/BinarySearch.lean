import Wgs.Foundation.Cells
import Wgs.Foundation.MachineInt

/-!
`C/erfenchazhao.c`: `binary_search` of an ascending array.

The loop runs while the range has two elements at least, and stops at an element equal to the key
only where the key is its index as well; at another one it goes on with the range it has.
`binary_search` prints an error if the loop has not run at all.

`Bisects` is the way of a bisection to an index.  The search is right exactly for arrays without
elements, for one element that is not the key, and where the bisection comes to the index `key`,
which holds the key, past no other element equal to it (`binarySearch_decides_iff`).
-/

namespace Wgs.BinarySearch

open Foundation

/-! ### The program -/

/-- What `binary_search` prints. -/
inductive Printed where
  | findSuccess (count mid key : ℤ)
  | findError
  deriving DecidableEq

/-- The variables of the loop. -/
structure Range where
  low : ℤ
  high : ℤ
  count : ℤ

/-- `(low + high) / 2`, an `int`. -/
def midOf (low high : ℤ) : ℤ := (toInt32 (low + high)).tdiv 2

/-- The body of `while (low < high)`; at the end of the loop, `count` and what was printed. -/
def searchBody (key : ℤ) (a : Cells ℤ) (_ : ℕ) (s : Range) :
    Option (Control Range (ℤ × List Printed)) :=
  if s.low < s.high then do
    let count := toInt32 (s.count + 1)
    let mid := midOf s.low s.high
    let v ← a.load mid
    if key < v then return .next ⟨s.low, mid - 1, count⟩
    else if key > v then return .next ⟨mid + 1, s.high, count⟩
    else if key = mid then return .stop (toInt32 (count + 1), [.findSuccess count mid key])
    else return .next ⟨s.low, s.high, count⟩
  else return .stop (s.count, [])

/-- `while (low < high)` -/
def searchLoop (key : ℤ) (a : Cells ℤ) : ℕ → Range → Option (ℤ × List Printed) :=
  loop (searchBody key a)

/-- `binary_search`. -/
def binarySearch (fuel : ℕ) (key : ℤ) (a : Cells ℤ) (n : ℤ) : Option (List Printed) := do
  let (count, printed) ← searchLoop key a fuel ⟨0, n - 1, 0⟩
  if count = 0 then return printed ++ [.findError] else return printed

/-! ### Bisection -/

/-- The bisection of the indices from `low` to `high` comes to `t`, by ranges of two indices at
least and with no sum that is too large for an `int`; `ms` are the midpoints on the way. -/
inductive Bisects (t : ℤ) : ℤ → ℤ → List ℤ → Prop where
  | here {low high : ℤ} :
      low < high → low + high ≤ 2147483647 → t = (low + high) / 2 → Bisects t low high []
  | left {low high : ℤ} {ms : List ℤ} :
      low < high → low + high ≤ 2147483647 → Bisects t low ((low + high) / 2 - 1) ms →
      Bisects t low high ((low + high) / 2 :: ms)
  | right {low high : ℤ} {ms : List ℤ} :
      low < high → low + high ≤ 2147483647 → Bisects t ((low + high) / 2 + 1) high ms →
      Bisects t low high ((low + high) / 2 :: ms)

/-- The bisection of the array comes to the index `key`, which holds the key, and to no other
element equal to the key before. -/
def MeetsKey (key : ℤ) (a : Cells ℤ) (low high : ℤ) : Prop :=
  ∃ ms, Bisects key low high ms ∧ a.load key = some key ∧ ∀ m ∈ ms, a.load m ≠ some key

/-- `binary_search` ends; it prints a success, with an index that holds the key, exactly when the
key occurs in the array, and the error exactly when it does not. -/
def Decides (key : ℤ) (a : Cells ℤ) : Prop :=
  ∃ printed, Returns (fun fuel => binarySearch fuel key a a.length) printed
    ∧ ((∃ count mid, .findSuccess count mid key ∈ printed) ↔ key ∈ a)
    ∧ (∀ count mid k, .findSuccess count mid k ∈ printed → a.load mid = some key)
    ∧ (.findError ∈ printed ↔ key ∉ a)

variable {key t low high count v : ℤ} {a : Cells ℤ} {ms : List ℤ} {fuel : ℕ}
  {r : ℤ × List Printed}

lemma Bisects.mem (h : Bisects t low high ms) : low ≤ t ∧ t ≤ high := by
  induction h with
  | here hlt _ ht => omega
  | left hlt _ _ ih => omega
  | right hlt _ _ ih => omega

lemma Bisects.lt (h : Bisects t low high ms) : low < high := by
  cases h <;> assumption

/-- The midpoint of a range of the array, unless the sum is too large: then the index is
negative. -/
lemma midOf_eq (hlow : 0 ≤ low) (hlt : low < high) (hsum : low + high ≤ 2147483647) :
    midOf low high = (low + high) / 2 := by
  rw [midOf, toInt32_of_isInt32 ⟨by omega, hsum⟩, Int.tdiv_eq_ediv_of_nonneg (by omega)]

lemma midOf_neg (hlt : low < high) (hhigh : high ≤ 2147483647) (hsum : 2147483647 < low + high) :
    midOf low high < 0 := by
  have hint : toInt32 (low + high) = -(4294967296 - (low + high)) := by
    rw [toInt32]
    omega
  rw [midOf, hint, Int.neg_tdiv, Int.tdiv_eq_ediv_of_nonneg (by omega)]
  omega

/-- An element that is loaded is at a midpoint that is right. -/
lemma midOf_of_load (hlow : 0 ≤ low) (hlt : low < high) (hhigh : high ≤ 2147483647)
    (hv : a.load (midOf low high) = some v) :
    low + high ≤ 2147483647 ∧ midOf low high = (low + high) / 2 := by
  have hsum : low + high ≤ 2147483647 := by
    by_contra hlarge
    rw [Cells.load_eq_none fun hin => ?_] at hv
    · cases hv
    · have := midOf_neg hlt hhigh (by omega)
      omega
  exact ⟨hsum, midOf_eq hlow hlt hsum⟩

/-! ### One turn of the loop -/

/-- The loop ends with the range. -/
lemma searchLoop_end (hlt : ¬ low < high) :
    searchLoop key a (fuel + 1) ⟨low, high, count⟩ = some (count, []) := by
  simp [searchLoop, loop, searchBody, hlt]

/-- What the loop does with the element in the middle. -/
lemma searchLoop_turn (hlt : low < high) (hv : a.load (midOf low high) = some v) :
    searchLoop key a (fuel + 1) ⟨low, high, count⟩
      = if key < v then searchLoop key a fuel ⟨low, midOf low high - 1, toInt32 (count + 1)⟩
        else if v < key then searchLoop key a fuel ⟨midOf low high + 1, high, toInt32 (count + 1)⟩
        else if key = midOf low high then
          some (toInt32 (toInt32 (count + 1) + 1),
            [.findSuccess (toInt32 (count + 1)) (midOf low high) key])
        else searchLoop key a fuel ⟨low, high, toInt32 (count + 1)⟩ := by
  simp only [searchLoop, loop, searchBody, hlt, if_true, hv, Option.bind_eq_bind, Option.bind_some,
    gt_iff_lt]
  split_ifs <;> rfl

/-- A loop that returns has loaded the element in the middle. -/
lemma exists_load (hlt : low < high)
    (hr : searchLoop key a (fuel + 1) ⟨low, high, count⟩ = some r) :
    ∃ v, a.load (midOf low high) = some v := by
  cases hv : a.load (midOf low high) with
  | none => simp [searchLoop, loop, searchBody, hlt, hv] at hr
  | some v => exact ⟨v, rfl⟩

/-- At an element that equals the key and not its index, the loop goes on for ever. -/
lemma searchLoop_stuck (hlt : low < high) (hv : a.load (midOf low high) = some key)
    (hne : key ≠ midOf low high) : searchLoop key a fuel ⟨low, high, count⟩ = none := by
  induction fuel generalizing count with
  | zero => rfl
  | succ fuel ih =>
      rw [searchLoop_turn hlt hv, if_neg (lt_irrefl _), if_neg (lt_irrefl _), if_neg hne]
      exact ih

/-! ### The loop -/

/-- The array ascends. -/
lemma le_of_load {i j x y : ℤ} (ha : a.Pairwise (· ≤ ·)) (hi : a.load i = some x)
    (hj : a.load j = some y) (hij : i < j) : x ≤ y := by
  rw [Cells.load] at hi hj
  split_ifs at hi hj with hi₀ hj₀
  obtain ⟨hi', rfl⟩ := List.getElem?_eq_some_iff.mp hi
  obtain ⟨hj', rfl⟩ := List.getElem?_eq_some_iff.mp hj
  exact List.pairwise_iff_getElem.mp ha _ _ hi' hj' (by omega)

/-- **Where the bisection meets the key**, the loop finds it. -/
lemma searchLoop_of_bisects (ha : a.Pairwise (· ≤ ·)) (h : Bisects key low high ms)
    (hlow : 0 ≤ low) (hhigh : high < a.length) (hkey : a.load key = some key)
    (hms : ∀ m ∈ ms, a.load m ≠ some key) :
    ∃ c c', Returns (fun fuel => searchLoop key a fuel ⟨low, high, count⟩)
      (c', [.findSuccess c key key]) := by
  induction h generalizing count with
  | @here low high hlt hsum ht =>
      have hmid : midOf low high = key := by rw [midOf_eq hlow hlt hsum, ht]
      have hv : a.load (midOf low high) = some key := by rw [hmid, hkey]
      refine ⟨toInt32 (count + 1), toInt32 (toInt32 (count + 1) + 1), .of_add 1 fun fuel => ?_⟩
      rw [searchLoop_turn hlt hv, if_neg (lt_irrefl _), if_neg (lt_irrefl _), if_pos hmid.symm,
        hmid]
  | @left low high ms hlt hsum h ih =>
      have hv := Cells.load_eq (s := a) (show 0 ≤ (low + high) / 2 by omega) (by omega)
      have hle := le_of_load ha hkey hv (by have := h.mem; omega)
      have hne : a.cell ((low + high) / 2) ≠ key := fun heq =>
        hms _ List.mem_cons_self (heq ▸ hv)
      rw [← midOf_eq hlow hlt hsum] at hv hne hle
      obtain ⟨c, c', hrest⟩ := ih hlow (by omega) fun m hm => hms m (List.mem_cons_of_mem _ hm)
      refine ⟨c, c', hrest.succ fun fuel hreturn => ?_⟩
      rw [searchLoop_turn hlt hv, if_pos (lt_of_le_of_ne hle hne.symm), midOf_eq hlow hlt hsum]
      exact hreturn
  | @right low high ms hlt hsum h ih =>
      have hv := Cells.load_eq (s := a) (show 0 ≤ (low + high) / 2 by omega) (by omega)
      have hle := le_of_load ha hv hkey (by have := h.mem; omega)
      have hne : a.cell ((low + high) / 2) ≠ key := fun heq =>
        hms _ List.mem_cons_self (heq ▸ hv)
      rw [← midOf_eq hlow hlt hsum] at hv hne hle
      obtain ⟨c, c', hrest⟩ := ih (by omega) hhigh fun m hm => hms m (List.mem_cons_of_mem _ hm)
      refine ⟨c, c', hrest.succ fun fuel hreturn => ?_⟩
      rw [searchLoop_turn hlt hv, if_neg (not_lt.mpr hle), if_pos (lt_of_le_of_ne hle hne),
        midOf_eq hlow hlt hsum]
      exact hreturn

/-- **What the loop finds** is met by the bisection. -/
lemma bisects_of_searchLoop {count' c m k : ℤ} {printed : List Printed} (hlow : 0 ≤ low)
    (hhigh : high ≤ 2147483647)
    (hr : searchLoop key a fuel ⟨low, high, count⟩ = some (count', printed))
    (hmem : .findSuccess c m k ∈ printed) : m = key ∧ MeetsKey key a low high := by
  induction fuel generalizing low high count with
  | zero => cases hr
  | succ fuel ih =>
      by_cases hlt : low < high
      · obtain ⟨v, hv⟩ := exists_load hlt hr
        obtain ⟨hsum, hmid⟩ := midOf_of_load hlow hlt hhigh hv
        rw [searchLoop_turn hlt hv] at hr
        rw [hmid] at hr hv
        split_ifs at hr with hless hgreater hkey
        · obtain ⟨hm, ms, h, hheld, hms⟩ := ih hlow (by omega) hr
          refine ⟨hm, _ :: ms, .left hlt hsum h, hheld, List.forall_mem_cons.mpr ⟨?_, hms⟩⟩
          rw [hv, ne_eq, Option.some_inj]
          exact hless.ne'
        · obtain ⟨hm, ms, h, hheld, hms⟩ := ih (by omega) hhigh hr
          refine ⟨hm, _ :: ms, .right hlt hsum h, hheld, List.forall_mem_cons.mpr ⟨?_, hms⟩⟩
          rw [hv, ne_eq, Option.some_inj]
          exact hgreater.ne
        · obtain rfl : v = key := by omega
          obtain ⟨-, rfl⟩ := Prod.ext_iff.mp (Option.some_inj.mp hr)
          rw [List.mem_singleton, Printed.findSuccess.injEq] at hmem
          exact ⟨hmem.2.1.trans hkey.symm, [], .here hlt hsum hkey, hkey ▸ hv, by simp⟩
        · exact ih hlow hhigh hr
      · rw [searchLoop_end hlt] at hr
        obtain ⟨-, rfl⟩ := Prod.ext_iff.mp (Option.some_inj.mp hr)
        cases hmem

/-- When the loop returns, `count` has grown with every turn: the ranges are too short for it to be
too large for an `int`. -/
lemma count_le {count' : ℤ} {printed : List Printed} (hlow : 0 ≤ low) (hhigh : high ≤ 2147483647)
    (hcount : 0 ≤ count) (hbound : count + (high - low) ≤ 2147483646)
    (hr : searchLoop key a fuel ⟨low, high, count⟩ = some (count', printed)) :
    count ≤ count' ∧ (low < high → count < count') := by
  induction fuel generalizing low high count with
  | zero => cases hr
  | succ fuel ih =>
      by_cases hlt : low < high
      · obtain ⟨v, hv⟩ := exists_load hlt hr
        obtain ⟨hsum, hmid⟩ := midOf_of_load hlow hlt hhigh hv
        have hnext : toInt32 (count + 1) = count + 1 := toInt32_of_isInt32 ⟨by omega, by omega⟩
        rw [searchLoop_turn hlt hv, hnext] at hr
        split_ifs at hr with hless hgreater hkey
        · have hrest := (ih hlow (by omega) (by omega) (by omega) hr).1
          omega
        · have hrest := (ih (by omega) hhigh (by omega) (by omega) hr).1
          omega
        · have hlast : toInt32 (count + 1 + 1) = count + 2 := by
            rw [toInt32_of_isInt32 ⟨by omega, by omega⟩]
            ring
          rw [Option.some_inj, Prod.mk.injEq, hlast] at hr
          omega
        · obtain rfl : v = key := by omega
          rw [searchLoop_stuck hlt hv hkey] at hr
          cases hr
      · rw [searchLoop_end hlt] at hr
        obtain ⟨rfl, -⟩ := Prod.ext_iff.mp (Option.some_inj.mp hr)
        exact ⟨le_rfl, fun h => absurd h hlt⟩

/-- The loop prints no error. -/
lemma findError_notMem {s : Range} (hr : searchLoop key a fuel s = some r) :
    .findError ∉ r.2 := by
  refine loop_invariant (I := fun _ => True) (Q := fun r => .findError ∉ r.2)
    (fun fuel s c _ hc => ?_) trivial hr
  rw [searchBody] at hc
  split_ifs at hc with hlt
  · obtain ⟨v, -, hc⟩ := Option.bind_eq_some_iff.mp hc
    split_ifs at hc <;> cases hc <;> simp [Control.Meets]
  · cases hc
    simp [Control.Meets]

/-! ### `binary_search` -/

lemma mem_of_load {i x : ℤ} (h : a.load i = some x) : x ∈ a := by
  rw [Cells.load] at h
  split_ifs at h
  exact List.mem_of_getElem? h

/-- Without two elements the loop does not run. -/
lemma binarySearch_short (hlen : a.length ≤ 1) :
    Returns (fun fuel => binarySearch fuel key a a.length) [.findError] := by
  have hend : ¬ (0 : ℤ) < a.length - 1 := by omega
  exact .of_add 1 fun fuel => by simp [binarySearch, searchLoop_end hend]

/-- With two elements or more, `binary_search` prints what the loop does. -/
lemma binarySearch_eq_some_iff (hlen : 2 ≤ a.length) (hint : a.length ≤ 2147483647)
    {printed : List Printed} :
    binarySearch fuel key a a.length = some printed
      ↔ ∃ count, searchLoop key a fuel ⟨0, a.length - 1, 0⟩ = some (count, printed) := by
  have hcount : ∀ count printed,
      searchLoop key a fuel ⟨0, a.length - 1, 0⟩ = some (count, printed) → count ≠ 0 :=
    fun count printed hr => ((count_le le_rfl (by omega) le_rfl (by omega) hr).2 (by omega)).ne'
  rw [binarySearch]
  cases hr : searchLoop key a fuel ⟨0, a.length - 1, 0⟩ with
  | none => simp
  | some r =>
      obtain ⟨count, printed'⟩ := r
      simp [hcount count printed' hr]

/-- Of arrays with two elements or more, the search decides those where the bisection meets the
key. -/
lemma decides_iff_meetsKey (ha : a.Pairwise (· ≤ ·)) (hlen : 2 ≤ a.length)
    (hint : a.length ≤ 2147483647) : Decides key a ↔ MeetsKey key a 0 (a.length - 1) := by
  constructor
  · rintro ⟨printed, ⟨N, hN⟩, hsuccess, -, herror⟩
    obtain ⟨count, hr⟩ := (binarySearch_eq_some_iff hlen hint).mp (hN N le_rfl)
    -- no error is printed, so the key occurs
    have hmem : key ∈ a := not_not.mp fun hnot => findError_notMem hr (herror.mpr hnot)
    obtain ⟨c, m, hfound⟩ := hsuccess.mpr hmem
    exact (bisects_of_searchLoop le_rfl (by omega) hr hfound).2
  · rintro ⟨ms, h, hheld, hms⟩
    obtain ⟨c, count, N, hN⟩ := searchLoop_of_bisects ha h le_rfl (by omega) hheld hms
    have hmem := mem_of_load hheld
    refine ⟨[.findSuccess c key key], ⟨N, fun fuel hfuel =>
      (binarySearch_eq_some_iff hlen hint).mpr ⟨count, hN fuel hfuel⟩⟩, ?_, ?_, ?_⟩
    · exact iff_of_true ⟨c, key, List.mem_singleton_self _⟩ hmem
    · intro c' m k hfound
      rw [List.mem_singleton, Printed.findSuccess.injEq] at hfound
      rw [hfound.2.1, hheld]
    · exact iff_of_false (by simp) (not_not.mpr hmem)

/-- Of the others, the search decides those without the key. -/
lemma decides_short_iff (hlen : a.length ≤ 1) : Decides key a ↔ key ∉ a := by
  have hreturns : Returns (fun fuel => binarySearch fuel key a a.length) [.findError] :=
    binarySearch_short hlen
  constructor
  · rintro ⟨printed, hreturns', -, -, herror⟩
    obtain rfl := hreturns.unique hreturns'
    exact herror.mp (List.mem_singleton_self _)
  · intro hnot
    exact ⟨_, hreturns, iff_of_false (by simp) hnot, by simp, iff_of_true (by simp) hnot⟩

/-- **When the search is right**: exactly for the empty array, for one element that is not the key,
and where the bisection comes to the index `key`, which holds the key, and before to no other
element equal to it. -/
theorem binarySearch_decides_iff (ha : a.Pairwise (· ≤ ·)) (hint : a.length ≤ 2147483647) :
    Decides key a ↔ a = [] ∨ (∃ x, a = [x] ∧ x ≠ key) ∨ MeetsKey key a 0 (a.length - 1) := by
  -- a range of one index is not bisected
  have hshort : a.length ≤ 1 → ¬ MeetsKey key a 0 (a.length - 1) := by
    rintro hlen ⟨ms, h, -, -⟩
    have := h.lt
    omega
  match a with
  | [] => exact iff_of_true ((decides_short_iff (by simp)).mpr List.not_mem_nil) (Or.inl rfl)
  | [x] =>
      rw [decides_short_iff (by simp), or_iff_left (hshort (by simp))]
      simp [eq_comm]
  | x :: y :: a =>
      rw [decides_iff_meetsKey ha (by simp) hint]
      simp

/-- `main`: the key 8 in the array of the numbers from 0 to 9. -/
theorem binarySearch_decides_eight : Decides 8 [0, 1, 2, 3, 4, 5, 6, 7, 8, 9] := by
  refine (binarySearch_decides_iff (by decide) (by decide)).mpr (Or.inr (Or.inr ⟨[4, 7], ?_⟩))
  exact ⟨.right (by decide) (by decide) (.right (by decide) (by decide)
    (.here (by decide) (by decide) (by decide))), by decide, by decide⟩

/-- **The key 5 at the index 0**: the loop goes on with the same range for ever. -/
theorem binarySearch_stuck :
    (∀ fuel, binarySearch fuel 5 [5, 6] 2 = none) ∧ ¬ Decides 5 [5, 6] := by
  have hstuck : ∀ fuel, binarySearch fuel 5 [5, 6] 2 = none := by
    intro fuel
    have hloop : searchLoop 5 [5, 6] fuel ⟨0, 1, 0⟩ = none :=
      searchLoop_stuck (by decide) (by decide) (by decide)
    rw [binarySearch, show (2 : ℤ) - 1 = 1 by decide, hloop]
    rfl
  refine ⟨hstuck, ?_⟩
  rintro ⟨printed, hreturns, -⟩
  exact not_returns hstuck hreturns

end Wgs.BinarySearch
