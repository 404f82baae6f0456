import Wgs.Sorting.Shell

/-!
The second Shell sort: `sequence` of `C/testxier.c`.

Where a Shell sort inserts the value at `i` among those at the distance of the gap in front of it,
this routine compares it with the one at `i - d` alone, and exchanges the two if they are out of
order.  A pass carries the greatest value so far along, and moves each smaller one a single gap to
the front: it leaves `swept n d f` of the values `f`.

The last pass, with the gap 1, sorts what the others leave exactly when no value has two greater
ones in front of it (`ascends_swept_iff`).  For three values and more there are arrays where one
has, and so `sequence` and `shsort` differ on them (`sequence_agrees_iff`).
-/

namespace Wgs.Sorting.GapSwap

open Foundation

/-! ### The program -/

/-- The body of the `for` loop. -/
def gapStep (b : Cells ℤ) (d i : ℤ) : Option (Cells ℤ) := do
  let b ← b.store 0 (← b.load i)
  let j := i - d
  if j > 0 then
    if (← b.load 0) < (← b.load j) then
      let b ← b.store i (← b.load j)
      b.store j (← b.load 0)
    else return b
  else return b

/-- `for (i = d + 1; i <= n; i++)`, from some `i` on. -/
def gapPass (n d : ℤ) : ℕ → Cells ℤ × ℤ → Option (Cells ℤ × ℤ) :=
  whileLoop
    (fun (_, i) => return i ≤ n)
    (fun _ (b, i) => return (← gapStep b d i, toInt32 (i + 1)))

/-- `while (d > 0)`, from some `d` on. -/
def gapLoop (n : ℤ) : ℕ → Cells ℤ × ℤ → Option (Cells ℤ × ℤ) :=
  whileLoop
    (fun (_, d) => return d > 0)
    (fun fuel (b, d) => do
      let (b, _) ← gapPass n d fuel (b, d + 1)
      return (b, d.tdiv 2))

/-- `sequence`. -/
def sequence (fuel : ℕ) (b : Cells ℤ) (n : ℤ) : Option (Cells ℤ) := do
  let (b, _) ← gapLoop n fuel (b, n.tdiv 2)
  return b

/-! ### What a pass leaves -/

/-- The greatest of the values at `i`, `i - d`, `i - 2 * d` and so on, from the place 1 on. -/
def greatest (d : ℤ) (f : ℤ → ℤ) (i : ℤ) : ℤ :=
  if 1 ≤ d ∧ d < i then max (f i) (greatest d f (i - d)) else f i
termination_by i.toNat

/-- The values after a pass with the gap `d` over the places from 1 to `n`. -/
def swept (n d : ℤ) (f : ℤ → ℤ) (i : ℤ) : ℤ :=
  if i + d ≤ n then min (f (i + d)) (greatest d f i) else greatest d f i

/-- The gaps from `d` down to 2. -/
def gaps (d : ℤ) : List ℤ := if 2 ≤ d then d :: gaps (d / 2) else []
termination_by d.toNat

/-- The values that the passes with the gaps from `d` down to 2 leave. -/
def sweptDown (n d : ℤ) (f : ℤ → ℤ) : ℤ → ℤ := (gaps d).foldl (fun f e => swept n e f) f

/-- No value has two greater ones in front of it. -/
def AtMostOneGreater (n : ℤ) (f : ℤ → ℤ) : Prop :=
  ∀ i j k, 1 ≤ i → i < j → j < k → k ≤ n → f i ≤ f k ∨ f j ≤ f k

section Swept

variable {n d : ℤ} {f g : ℤ → ℤ} {i : ℤ}

lemma greatest_of_lt (hd : 1 ≤ d) (hi : d < i) :
    greatest d f i = max (f i) (greatest d f (i - d)) := by
  rw [greatest, if_pos ⟨hd, hi⟩]

lemma greatest_of_le (hi : i ≤ d) : greatest d f i = f i := by
  rw [greatest, if_neg fun h => absurd h.2 (not_lt.mpr hi)]

/-- Only the places up to `i` matter. -/
lemma greatest_congr (hi : 1 ≤ i) (h : ∀ k, 1 ≤ k → k ≤ i → g k = f k) :
    greatest d g i = greatest d f i := by
  induction hm : i.toNat using Nat.strong_induction_on generalizing i with
  | _ m ih =>
      by_cases hd : 1 ≤ d ∧ d < i
      · rw [greatest_of_lt hd.1 hd.2, greatest_of_lt hd.1 hd.2, h i hi le_rfl,
          ih _ (by omega) (by omega) (fun k hk hk' => h k hk (by omega)) rfl]
      · rw [greatest, if_neg hd, greatest, if_neg hd, h i hi le_rfl]

lemma swept_congr (hd : 1 ≤ d) (hi : 1 ≤ i) (hin : i ≤ n) (h : ∀ k, 1 ≤ k → k ≤ n → g k = f k) :
    swept n d g i = swept n d f i := by
  have hgreatest : greatest d g i = greatest d f i :=
    greatest_congr hi fun k hk hki => h k hk (by omega)
  rw [swept, swept, hgreatest]
  split_ifs with hlt
  · rw [h _ (by omega) hlt]
  · rfl

lemma le_greatest_self : f i ≤ greatest d f i := by
  by_cases hd : 1 ≤ d ∧ d < i
  · rw [greatest_of_lt hd.1 hd.2]
    exact le_max_left _ _
  · rw [greatest, if_neg hd]

/-- With the gap 1, all values in front count. -/
lemma le_greatest {k : ℤ} (hk : 1 ≤ k) (hki : k ≤ i) : f k ≤ greatest 1 f i := by
  obtain ⟨m, rfl⟩ := Int.le.dest hki
  induction m with
  | zero =>
      rw [Nat.cast_zero, add_zero]
      exact le_greatest_self
  | succ m ih =>
      have hprev := ih (by omega)
      rw [greatest_of_lt le_rfl (by push_cast; omega)]
      push_cast
      rw [show k + (m + 1) - 1 = k + (m : ℤ) by ring]
      exact hprev.trans (le_max_right _ _)

/-- One of the values is the greatest. -/
lemma exists_greatest (hi : 1 ≤ i) : ∃ k, 1 ≤ k ∧ k ≤ i ∧ greatest 1 f i = f k := by
  induction hm : i.toNat using Nat.strong_induction_on generalizing i with
  | _ m ih =>
      by_cases h1 : 1 < i
      · obtain ⟨k, hk, hki, heq⟩ := ih _ (by omega) (show 1 ≤ i - 1 by omega) rfl
        rw [greatest_of_lt le_rfl h1]
        rcases max_choice (f i) (greatest 1 f (i - 1)) with hmax | hmax
        · exact ⟨i, hi, le_rfl, hmax⟩
        · exact ⟨k, hk, by omega, hmax.trans heq⟩
      · exact ⟨i, hi, le_rfl, greatest_of_le (by omega)⟩

lemma sweptDown_of_lt (hd : d < 2) : sweptDown n d f = f := by
  rw [sweptDown, gaps, if_neg (by omega)]
  rfl

lemma sweptDown_of_le (hd : 2 ≤ d) : sweptDown n d f = sweptDown n (d / 2) (swept n d f) := by
  rw [sweptDown, gaps, if_pos hd]
  rfl

lemma sweptDown_congr (h : ∀ k, 1 ≤ k → k ≤ n → g k = f k) (hi : 1 ≤ i) (hin : i ≤ n) :
    sweptDown n d g i = sweptDown n d f i := by
  induction hm : d.toNat using Nat.strong_induction_on generalizing d f g with
  | _ m ih =>
      by_cases hd : 2 ≤ d
      · rw [sweptDown_of_le hd, sweptDown_of_le hd]
        exact ih _ (by omega) (fun k hk hkn => swept_congr (by omega) hk hkn h) rfl
      · rw [sweptDown_of_lt (by omega), sweptDown_of_lt (by omega), h i hi hin]

/-- **When a pass with the gap 1 sorts**: no value has two greater ones in front of it. -/
theorem ascends_swept_iff : AscendsOn (swept n 1 f) 1 n ↔ AtMostOneGreater n f := by
  constructor
  · intro hasc i j k hi hij hjk hkn
    by_contra hgt
    rw [not_or, not_le, not_le] at hgt
    obtain ⟨hik, hjk'⟩ := hgt
    -- the smaller value comes in front of `k`, and one that is greater in front of `j`
    have hle := hasc (j - 1) (k - 1) (by omega) (by omega) (by omega)
    have hmax : f i ≤ greatest 1 f (j - 1) := le_greatest hi (by omega)
    rw [swept, swept, if_pos (by omega), if_pos (by omega), sub_add_cancel, sub_add_cancel] at hle
    have hlt : f k < min (f j) (greatest 1 f (j - 1)) := lt_min hjk' (by omega)
    exact absurd (hle.trans (min_le_left _ _)) (not_le.mpr hlt)
  · intro hone
    refine GapOrdered.ascends fun k hk hkn => ?_
    have hmono : greatest 1 f k ≤ greatest 1 f (k + 1) := by
      rw [greatest_of_lt (i := k + 1) le_rfl (by omega), add_sub_cancel_right]
      exact le_max_right _ _
    rw [swept, if_pos hkn, swept]
    split_ifs with hlt
    · refine le_min ?_ ((min_le_right _ _).trans hmono)
      obtain ⟨i, hi, hik, heq⟩ := exists_greatest (f := f) hk
      rw [heq]
      rcases hone i (k + 1) (k + 1 + 1) hi (by omega) (by omega) hlt with hle | hle
      · exact (min_le_right _ _).trans hle
      · exact (min_le_left _ _).trans hle
    · exact (min_le_right _ _).trans hmono

end Swept

/-! ### The passes -/

section Passes

variable {b₀ b b' : Cells ℤ} {n d i : ℤ}

/-- One step: the two values at the distance of the gap, in order. -/
lemma gapStep_ends (hd : 1 ≤ d) (hdi : d + 1 ≤ i) (hin : i ≤ n) (hn : n < b.length) :
    ∃ b', gapStep b d i = some b' ∧ b'.length = b.length
      ∧ RearrangesPast 0 (Set.Icc 1 n) b.cell b'.cell
      ∧ b'.cell i = max (b.cell i) (b.cell (i - d))
      ∧ b'.cell (i - d) = min (b.cell i) (b.cell (i - d))
      ∧ ∀ k, 1 ≤ k → k ≠ i → k ≠ i - d → b'.cell k = b.cell k := by
  have hi : i ∈ Set.Icc 1 n := ⟨by omega, hin⟩
  have hj : i - d ∈ Set.Icc 1 n := ⟨by omega, by omega⟩
  have hpos : d < i := by omega
  have hload := Cells.load_eq (s := b) (i := i) (by omega) (by omega)
  obtain ⟨b₁, hb₁, hlen₁, hcell₁⟩ := Cells.store_spec (s := b) (i := 0) le_rfl (by omega) (b.cell i)
  have h₀ : b₁.load 0 = some (b.cell i) := by
    rw [Cells.load_eq le_rfl (by omega), hcell₁, Function.update_self]
  have hkeep : ∀ k, 1 ≤ k → b₁.cell k = b.cell k := fun k hk => by
    rw [hcell₁, Function.update_of_ne (by omega)]
  have hload' : b₁.load (i - d) = some (b.cell (i - d)) := by
    rw [Cells.load_eq (by omega) (by omega), hkeep _ (by omega)]
  by_cases hcmp : b.cell i < b.cell (i - d)
  · obtain ⟨b₂, hb₂, hlen₂, hcell₂⟩ := Cells.store_spec (s := b₁) (i := i) (by omega) (by omega)
      (b.cell (i - d))
    have h₀' : b₂.load 0 = some (b.cell i) := by
      rw [Cells.load_eq_of_cell (s := b₁) hlen₂, h₀]
      rw [hcell₂, Function.update_of_ne (by omega)]
    obtain ⟨b₃, hb₃, hlen₃, hcell₃⟩ := Cells.store_spec (s := b₂) (i := i - d) (by omega)
      (by omega) (b.cell i)
    have hswap : b₃.cell = b₁.cell ∘ Equiv.swap i (i - d) := by
      rw [hcell₃, hcell₂, ← update_eq_swap, hkeep i (by omega), hkeep (i - d) (by omega)]
    refine ⟨b₃, ?_, by omega, ⟨b.cell i, ?_⟩, ?_, ?_, fun k hk hki hkj => ?_⟩
    · simp [gapStep, hload, hb₁, hpos, h₀, hload', hcmp, hb₂, h₀', hb₃]
    · rw [hswap, ← hcell₁]
      exact .swap _ hi hj
    · rw [hswap, Function.comp_apply, Equiv.swap_apply_left, hkeep _ (by omega),
        max_eq_right hcmp.le]
    · rw [hswap, Function.comp_apply, Equiv.swap_apply_right, hkeep _ (by omega),
        min_eq_left hcmp.le]
    · rw [hswap, Function.comp_apply, Equiv.swap_apply_of_ne_of_ne hki hkj, hkeep k hk]
  · rw [not_lt] at hcmp
    refine ⟨b₁, ?_, hlen₁, ⟨b.cell i, ?_⟩, ?_, ?_, fun k hk _ _ => hkeep k hk⟩
    · simp [gapStep, hload, hb₁, h₀, hload', hcmp.not_gt]
    · rw [hcell₁]
      exact .refl _ _
    · rw [hkeep i (by omega), max_eq_left hcmp]
    · rw [hkeep _ (by omega), min_eq_right hcmp]

/-- The array in a pass, before the step at `i`: the greatest values are at the last places of each
distance that were reached, and the others have moved. -/
structure Sweeping (b₀ : Cells ℤ) (n d : ℤ) (b : Cells ℤ) (i : ℤ) : Prop where
  length_eq : b.length = b₀.length
  lt : d < i
  le : i ≤ n + 1
  rearranges : RearrangesPast 0 (Set.Icc 1 n) b₀.cell b.cell
  moved : ∀ k, 1 ≤ k → k + d < i → b.cell k = min (b₀.cell (k + d)) (greatest d b₀.cell k)
  carried : ∀ k, 1 ≤ k → k < i → i ≤ k + d → b.cell k = greatest d b₀.cell k
  ahead : ∀ k, i ≤ k → b.cell k = b₀.cell k

lemma Sweeping.step (hd : 1 ≤ d) (h : Sweeping b₀ n d b i) (hin : i ≤ n)
    (hlen : b'.length = b.length) (hrearr : RearrangesPast 0 (Set.Icc 1 n) b.cell b'.cell)
    (hmax : b'.cell i = max (b.cell i) (b.cell (i - d)))
    (hmin : b'.cell (i - d) = min (b.cell i) (b.cell (i - d)))
    (hother : ∀ k, 1 ≤ k → k ≠ i → k ≠ i - d → b'.cell k = b.cell k) :
    Sweeping b₀ n d b' (i + 1) := by
  have hlt := h.lt
  have hcarried := h.carried (i - d) (by omega) (by omega) (by omega)
  have hahead := h.ahead i le_rfl
  refine ⟨hlen.trans h.length_eq, by omega, by omega, h.rearranges.trans (by simp) hrearr,
    fun k hk hki => ?_, fun k hk hki hik => ?_, fun k hik => ?_⟩
  · rcases (Int.lt_add_one_iff.mp hki).lt_or_eq with hlt' | heq
    · rw [hother k hk (by omega) (by omega)]
      exact h.moved k hk hlt'
    · obtain rfl : k = i - d := by omega
      rw [hmin, hahead, hcarried, sub_add_cancel]
  · rcases (Int.lt_add_one_iff.mp hki).lt_or_eq with hlt' | rfl
    · rw [hother k hk hlt'.ne (by omega)]
      exact h.carried k hk hlt' (by omega)
    · rw [hmax, hahead, hcarried, greatest_of_lt hd hlt]
  · rw [hother k (by omega) (by omega) (by omega)]
    exact h.ahead k (by omega)

/-- A pass, if its counter does not overflow. -/
lemma gapPass_ends (hd : 1 ≤ d) (hdn : d ≤ n) (hn : n < b.length) (hmax : n < 2147483647) :
    Ends (fun fuel => gapPass n d fuel (b, d + 1)) fun r => r.1.length = b.length
      ∧ RearrangesPast 0 (Set.Icc 1 n) b.cell r.1.cell
      ∧ ∀ k, 1 ≤ k → k ≤ n → r.1.cell k = swept n d b.cell k := by
  refine Ends.whileLoop (I := fun r => Sweeping b n d r.1 r.2) (fun r => (n + 1 - r.2).toNat)
    (fun r hr => ?_) ⟨rfl, by dsimp only; omega, by dsimp only; omega, .refl _ _ _,
      fun k hk hki => by dsimp only at hki; omega, fun k _ hki _ => ?_, fun _ _ => rfl⟩
  · obtain ⟨b', i⟩ := r
    dsimp only at hr ⊢
    have hlen := hr.length_eq
    have hlt := hr.lt
    by_cases hi : i ≤ n
    · refine Or.inl ⟨by simp [hi], ?_⟩
      obtain ⟨b'', hb'', hlen', hrearr, hmax', hmin, hother⟩ :=
        gapStep_ends (b := b') hd (by omega) hi (by omega)
      have hnext : toInt32 (i + 1) = i + 1 := toInt32_of_isInt32 ⟨by omega, by omega⟩
      refine .of_eq (r := (b'', i + 1)) (fun _ => by simp [hb'', hnext])
        ⟨hr.step hd hi hlen' hrearr hmax' hmin hother, ?_⟩
      dsimp only
      omega
    · have hle := hr.le
      obtain rfl : i = n + 1 := by omega
      refine Or.inr ⟨by simp, hlen, hr.rearranges, fun k hk hkn => ?_⟩
      rw [swept]
      split_ifs with hkd
      · exact hr.moved k hk (by omega)
      · exact hr.carried k hk (by omega) (by omega)
  · rw [greatest_of_le (by dsimp only at hki; omega)]

/-- The passes from the gap `d` down to 1. -/
lemma gapLoop_ends (hd : 1 ≤ d) (hdn : d ≤ n) (hn : n < b.length) (hmax : n < 2147483647) :
    Ends (fun fuel => gapLoop n fuel (b, d)) fun r => r.1.length = b.length
      ∧ RearrangesPast 0 (Set.Icc 1 n) b.cell r.1.cell
      ∧ ∀ k, 1 ≤ k → k ≤ n → r.1.cell k = swept n 1 (sweptDown n d b.cell) k := by
  refine Ends.whileLoop
    (I := fun r => r.1.length = b.length ∧ 0 ≤ r.2 ∧ r.2 ≤ n
      ∧ RearrangesPast 0 (Set.Icc 1 n) b.cell r.1.cell
      ∧ (1 ≤ r.2 → ∀ k, 1 ≤ k → k ≤ n → sweptDown n r.2 r.1.cell k = sweptDown n d b.cell k)
      ∧ (r.2 = 0 → ∀ k, 1 ≤ k → k ≤ n → r.1.cell k = swept n 1 (sweptDown n d b.cell) k))
    (fun r => r.2.toNat) (fun r hr => ?_)
    ⟨rfl, by dsimp only; omega, hdn, .refl _ _ _, fun _ _ _ _ => rfl, fun h => ?_⟩
  · obtain ⟨b', e⟩ := r
    obtain ⟨hlen, he₀, hen, hrearr, hdown, hlast⟩ := hr
    dsimp only at *
    by_cases he : 1 ≤ e
    · refine Or.inl ⟨by simpa using (show 0 < e by omega), ?_⟩
      refine (gapPass_ends he hen (by omega) hmax).bind fun ⟨b'', i⟩ ⟨hlen', hrearr', hcell⟩ => ?_
      have hhalf : e.tdiv 2 = e / 2 := Int.tdiv_eq_ediv_of_nonneg he₀
      have hrearr'' := hrearr.trans (by simp) hrearr'
      refine .of_eq (fun _ => rfl) ⟨⟨hlen'.trans hlen, ?_, ?_, hrearr'', ?_, ?_⟩, ?_⟩
        <;> dsimp only at * <;> rw [hhalf]
      · omega
      · omega
      · intro hhalf' k hk hkn
        rw [← hdown he k hk hkn, sweptDown_of_le (show 2 ≤ e by omega)]
        exact sweptDown_congr hcell hk hkn
      · intro hzero k hk hkn
        obtain rfl : e = 1 := by omega
        rw [hcell k hk hkn]
        refine swept_congr le_rfl hk hkn fun j hj hjn => ?_
        rw [← hdown le_rfl j hj hjn, sweptDown_of_lt (by decide)]
      · omega
    · exact Or.inr ⟨by simpa using (show e ≤ 0 by omega), hlen, hrearr, hlast (by omega)⟩
  · dsimp only at h
    omega

end Passes

/-! ### Arrays that stay out of order -/

section Failing

variable {n d : ℤ} {f : ℤ → ℤ}

/-- A pass leaves values that are in order at its gap. -/
lemma swept_of_gapOrdered (hd : 1 ≤ d) (h : GapOrdered d n f) {i : ℤ} (hi : 1 ≤ i) (hin : i ≤ n) :
    swept n d f i = f i := by
  have hgreatest : ∀ m : ℕ, ∀ i : ℤ, i.toNat = m → 1 ≤ i → i ≤ n → greatest d f i = f i := by
    intro m
    induction m using Nat.strong_induction_on with
    | _ m ih =>
        intro i hm hi hin
        by_cases hlt : d < i
        · have hle := h (i - d) (by omega) (by omega)
          rw [sub_add_cancel] at hle
          rw [greatest_of_lt hd hlt, ih _ (by omega) _ rfl (by omega) (by omega), max_eq_left hle]
        · exact greatest_of_le (by omega)
  rw [swept, hgreatest _ i rfl hi hin]
  split_ifs with hid
  · exact min_eq_right (h i hi hid)
  · rfl

lemma mem_gaps {e : ℤ} (he : e ∈ gaps d) : 2 ≤ e ∧ e ≤ d := by
  induction hm : d.toNat using Nat.strong_induction_on generalizing d with
  | _ m ih =>
      rw [gaps] at he
      split_ifs at he with hd
      · rcases List.mem_cons.mp he with rfl | he
        · exact ⟨hd, le_rfl⟩
        · obtain ⟨hle, hle'⟩ := ih _ (by omega) he rfl
          exact ⟨hle, by omega⟩
      · cases he

/-- No gap comes with a neighbour. -/
lemma succ_notMem_gaps {e : ℤ} (h : e ∈ gaps d) : e + 1 ∉ gaps d := by
  induction hm : d.toNat using Nat.strong_induction_on generalizing d with
  | _ m ih =>
      intro h'
      have hle := mem_gaps h
      rw [gaps, if_pos (by omega), List.mem_cons] at h h'
      rcases h with rfl | h
      · have hle' := mem_gaps (h'.resolve_left (by omega))
        omega
      · rcases h' with rfl | h'
        · have hle' := mem_gaps h
          omega
        · exact ih _ (by omega) h rfl h'

/-- The passes down to the gap 2 leave values that are in order at all their gaps. -/
lemma sweptDown_of_gapOrdered (h : ∀ e ∈ gaps d, GapOrdered e n f) {i : ℤ} (hi : 1 ≤ i)
    (hin : i ≤ n) : sweptDown n d f i = f i := by
  induction hm : d.toNat using Nat.strong_induction_on generalizing d with
  | _ m ih =>
      by_cases hd : 2 ≤ d
      · have hgaps : gaps d = d :: gaps (d / 2) := by rw [gaps, if_pos hd]
        rw [hgaps] at h
        rw [sweptDown_of_le hd, sweptDown_congr (f := f) (fun k hk hkn => ?_) hi hin]
        · exact ih _ (by omega) (fun e he => h e (List.mem_cons_of_mem _ he)) rfl
        · exact swept_of_gapOrdered (by omega) (h d List.mem_cons_self) hk hkn
      · rw [sweptDown_of_lt (by omega)]

/-- The values `2, 0, 3, 1, 4, 4, …`, or `3, 2, 1, 4, 4, …` if there is no pass with the gap 2: all
passes but the last one leave them as they are, and 1 has two greater ones in front of it. -/
def unsortable (n i : ℤ) : ℤ :=
  if 2 ∈ gaps (n / 2) then
    if i = 1 then 2 else if i = 2 then 0 else if i = 3 then 3 else if i = 4 then 1 else 4
  else if i = 1 then 3 else if i = 2 then 2 else if i = 3 then 1 else 4

lemma gapOrdered_unsortable {e : ℤ} (he : e ∈ gaps (n / 2)) : GapOrdered e n (unsortable n) := by
  obtain ⟨hle, -⟩ := mem_gaps he
  intro k hk hkn
  by_cases h2 : 2 ∈ gaps (n / 2)
  · have h3 : e ≠ 3 := by
      rintro rfl
      exact succ_notMem_gaps h2 he
    simp only [unsortable, if_pos h2]
    split_ifs <;> omega
  · have h2' : e ≠ 2 := by
      rintro rfl
      exact h2 he
    simp only [unsortable, if_neg h2]
    split_ifs <;> omega

lemma not_atMostOneGreater (hn : 3 ≤ n) (h : ∀ i, 1 ≤ i → i ≤ n → f i = unsortable n i) :
    ¬ AtMostOneGreater n f := by
  intro hone
  by_cases h2 : 2 ∈ gaps (n / 2)
  · have hle := (mem_gaps h2).2
    have hgt := hone 1 3 4 (by omega) (by omega) (by omega) (by omega)
    rw [h 1 (by omega) (by omega), h 3 (by omega) (by omega), h 4 (by omega) (by omega)] at hgt
    simp [unsortable, h2] at hgt
  · have hgt := hone 1 2 3 (by omega) (by omega) (by omega) hn
    rw [h 1 (by omega) (by omega), h 2 (by omega) (by omega), h 3 (by omega) (by omega)] at hgt
    simp [unsortable, h2] at hgt

end Failing

/-! ### `sequence` and `shsort` -/

section Agreement

variable {b : Cells ℤ} {n : ℤ}

/-- Both routines return with the same contents in `b[1..n]`, in ascending order. -/
def Agrees (b : Cells ℤ) (n : ℤ) : Prop :=
  ∃ t u, Returns (fun fuel => sequence fuel b n) t ∧ Returns (fun fuel => shsort fuel b n) u
    ∧ t.segment 1 n = u.segment 1 n ∧ SortedIn {0} 1 n b t

/-- What all passes together leave. -/
lemma sequence_ends (hn₁ : 1 ≤ n) (hn : n < b.length) (hmax : n < 2147483647) :
    Ends (fun fuel => sequence fuel b n) fun t => t.length = b.length
      ∧ RearrangesPast 0 (Set.Icc 1 n) b.cell t.cell
      ∧ (AscendsOn t.cell 1 n ↔ AtMostOneGreater n (sweptDown n (n / 2) b.cell)) := by
  have hhalf : n.tdiv 2 = n / 2 := Int.tdiv_eq_ediv_of_nonneg (by omega)
  simp only [sequence, hhalf]
  by_cases hn₂ : 2 ≤ n
  · refine (gapLoop_ends (show 1 ≤ n / 2 by omega) (by omega) hn hmax).bind
      fun r hr => ?_
    obtain ⟨t, d⟩ := r
    obtain ⟨hlen, hrearr, hcell⟩ := hr
    refine .of_eq (fun _ => rfl) ⟨hlen, hrearr, ?_⟩
    rw [← ascends_swept_iff]
    constructor
    · exact fun hasc => hasc.congr fun k hk => (hcell k hk.1 hk.2).symm
    · exact fun hasc => hasc.congr fun k hk => hcell k hk.1 hk.2
  · obtain rfl : n = 1 := by omega
    refine ⟨b, ⟨1, fun fuel hfuel => ?_⟩, rfl, .refl _ _ _, ?_⟩
    · obtain ⟨fuel, rfl⟩ : ∃ k, fuel = k + 1 := ⟨fuel - 1, by omega⟩
      rfl
    · refine ⟨fun _ i j k hi hij hjk hk => by omega, fun _ i j hi hij hj => ?_⟩
      obtain rfl : i = j := by omega
      exact le_rfl

/-- With the largest `int` there is, no pass comes to an end. -/
lemma gapPass_max {d i : ℤ} (hi : i ≤ 2147483647) (fuel : ℕ) :
    gapPass 2147483647 d fuel (b, i) = none :=
  whileLoop_counter_eq_none (fun _ _ => rfl) (fun _ _ _ => rfl)
    (fun _ => (isInt32_toInt32 _).2) hi fuel

lemma gapLoop_max {d : ℤ} (hd : 1 ≤ d) (hd' : d < 2147483647) (fuel : ℕ) :
    gapLoop 2147483647 fuel (b, d) = none := by
  refine whileLoop_eq_none_of_body (I := fun r => 1 ≤ r.2 ∧ r.2 < 2147483647) (fun r hr => ?_)
    (fun fuel r hr => ?_) ⟨hd, hd'⟩ fuel
  · have htest : 0 < r.2 := hr.1
    simpa using htest
  · simp [gapPass_max (by have := hr.2; omega : r.2 + 1 ≤ 2147483647)]

lemma sequence_max (fuel : ℕ) : sequence fuel b 2147483647 = none := by
  rw [sequence, gapLoop_max (by decide) (by decide)]
  rfl

/-- **The second Shell sort**: it agrees with `shsort` on an array exactly when `n` is not the
largest `int` and, among the values that the passes with the gaps from `n / 2` down to 2 leave, none
has two greater ones in front of it; it agrees with `shsort` on all arrays for `n` up to 2 alone. -/
theorem sequence_agrees_iff (hn₁ : 1 ≤ n) (hint : IsInt32 n) :
    (∀ b : Cells ℤ, n < b.length →
      (Agrees b n ↔ n ≠ 2147483647 ∧ AtMostOneGreater n (sweptDown n (n / 2) b.cell)))
    ∧ ((∀ b : Cells ℤ, n < b.length → Agrees b n) ↔ n ≤ 2) := by
  have heach : ∀ b : Cells ℤ, n < b.length →
      (Agrees b n ↔ n ≠ 2147483647 ∧ AtMostOneGreater n (sweptDown n (n / 2) b.cell)) := by
    intro b hn
    constructor
    · rintro ⟨t, u, ht, -, -, hsorted⟩
      have hmax : n ≠ 2147483647 := by
        rintro rfl
        exact not_returns sequence_max ht
      have hlt : n < 2147483647 := lt_of_le_of_ne hint.2 hmax
      obtain ⟨hlen, -, hiff⟩ := (sequence_ends hn₁ hn hlt).of_returns ht
      refine ⟨hmax, hiff.mp fun i j hi hij hj => ?_⟩
      have hpairs := (Cells.pairwise_segment_iff zero_le_one (hlen ▸ hn)).mp hsorted.ascending
      rcases hij.lt_or_eq with hlt' | rfl
      · exact hpairs i j hi hlt' hj
      · exact le_rfl
    · rintro ⟨hmax, hone⟩
      have hlt : n < 2147483647 := lt_of_le_of_ne hint.2 hmax
      obtain ⟨t, ht, hlen, hrearr, hiff⟩ := sequence_ends hn₁ hn hlt
      obtain ⟨u, hu, hsorted⟩ := shsort_ends (by omega) hn hlt
      have hsorted' : SortedIn {0} 1 n b t :=
        .of_rearrangesPast zero_le_one hn (by simp) hlen hrearr (hiff.mpr hone)
      exact ⟨t, u, ht, hu, hsorted'.segment_unique hsorted, hsorted'⟩
  refine ⟨heach, fun hall => ?_, fun hn₂ b hn => ?_⟩
  · by_contra hn₃
    have hlen := Cells.length_ofFun (f := unsortable n) (n := n) (by omega)
    obtain ⟨-, hone⟩ := (heach _ (by omega)).mp (hall (.ofFun (unsortable n) n) (by omega))
    have hcell : ∀ i, 1 ≤ i → i ≤ n → (Cells.ofFun (unsortable n) n).cell i = unsortable n i :=
      fun i hi hin => Cells.cell_ofFun (by omega) hin
    refine not_atMostOneGreater (by omega) (fun i hi hin => ?_) hone
    rw [sweptDown_congr hcell hi hin, sweptDown_of_gapOrdered (fun e he => ?_) hi hin]
    exact gapOrdered_unsortable he
  · exact (heach b hn).mpr ⟨by omega, fun i j k hi hij hjk hk => by omega⟩

/-- The theorem for five values, as `main` reads them. -/
theorem sequence_agrees_five :
    (∀ b : Cells ℤ, (5 : ℤ) < b.length →
      (Agrees b 5 ↔ (5 : ℤ) ≠ 2147483647 ∧ AtMostOneGreater 5 (sweptDown 5 (5 / 2) b.cell)))
    ∧ ((∀ b : Cells ℤ, (5 : ℤ) < b.length → Agrees b 5) ↔ (5 : ℤ) ≤ 2) :=
  sequence_agrees_iff (show (1 : ℤ) ≤ 5 by decide) (by rw [IsInt32]; decide)

/-- Three values in descending order are not sorted. -/
theorem sequence_three_fails : ¬ Agrees [0, 3, 2, 1] 3 := by
  rintro ⟨t, u, ht, -, -, hsorted⟩
  have hret : Returns (fun fuel => sequence fuel [0, 3, 2, 1] 3) [1, 2, 1, 3] :=
    ⟨4, fun fuel hfuel => by
      obtain ⟨fuel, rfl⟩ : ∃ k, fuel = k + 4 := ⟨fuel - 4, by omega⟩
      rfl⟩
  obtain rfl := ht.unique hret
  have hasc := hsorted.ascending
  revert hasc
  decide

end Agreement

end Wgs.Sorting.GapSwap
