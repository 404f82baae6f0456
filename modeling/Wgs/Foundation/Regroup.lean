import Mathlib.Tactic

/-!
Lists served in groups, and the digits of a group.

`groupwise n f` cuts a list into groups of `n`, the last one possibly shorter, and joins what `f`
makes of each; `group_induction` is the induction along it.  A group of digits in base `r` is the
number `leading r w`, its digits being the leading ones of `w`; `digit r w v` are the digits of a
number, and the two are inverse (`digit_leading`, `leading_map_digit`).  Re-reading the
number in another base regroups its digits.
-/

namespace Foundation

variable {α β : Type*}

/-! ### Groups -/

/-- The list `l` in groups of `n`, each of which `f` turns into a piece of the result. -/
def groupwise (n : ℕ) (f : List α → List β) (l : List α) : List β :=
  if n = 0 ∨ l = [] then [] else f (l.take n) ++ groupwise n f (l.drop n)
termination_by l.length
decreasing_by
  simp only [not_or, ← List.length_pos_iff] at *
  rw [List.length_drop]
  omega

variable {n : ℕ} {f : List α → List β}

@[simp] lemma groupwise_nil : groupwise n f [] = [] := by
  rw [groupwise, if_pos (Or.inr rfl)]

/-- One group. -/
lemma groupwise_of_length_le {g : List α} (hg : g ≠ []) (hle : g.length ≤ n) :
    groupwise n f g = f g := by
  have hpos : 0 < g.length := List.length_pos_iff.mpr hg
  rw [groupwise, if_neg (by simp only [hg, or_false]; omega), List.take_of_length_le hle,
    List.drop_of_length_le hle, groupwise_nil, List.append_nil]

/-- The first of several groups. -/
lemma groupwise_append {g l : List α} (hn : 0 < n) (hg : g.length = n) :
    groupwise n f (g ++ l) = f g ++ groupwise n f l := by
  have hne : g ≠ [] := List.length_pos_iff.mp (hg ▸ hn)
  rw [groupwise, if_neg (by simp [hne]; omega), List.take_left' hg, List.drop_left' hg]

/-- **Induction along groups**: the empty list, a last group that is not full, and a full group
before the others. -/
lemma group_induction {P : List α → Prop} (hn : 0 < n) (nil : P [])
    (short : ∀ g, g ≠ [] → g.length < n → P g)
    (group : ∀ g l, g.length = n → P l → P (g ++ l)) (l : List α) : P l := by
  by_cases hl : l = []
  · exact hl ▸ nil
  · by_cases hshort : l.length < n
    · exact short l hl hshort
    · have hlen : (l.take n).length = n := by
        rw [List.length_take]
        omega
      have hrest : P (l.drop n) := group_induction hn nil short group (l.drop n)
      rw [← List.take_append_drop n l]
      exact group _ _ hlen hrest
termination_by l.length
decreasing_by
  have := List.length_pos_iff.mpr hl
  rw [List.length_drop]
  omega

/-- What is in the result comes from a group. -/
lemma exists_of_mem_groupwise {l : List α} {b : β} (hn : 0 < n) (hb : b ∈ groupwise n f l) :
    ∃ g, b ∈ f g := by
  induction l using group_induction hn with
  | nil => simp at hb
  | short g hg hlt =>
      rw [groupwise_of_length_le hg hlt.le] at hb
      exact ⟨g, hb⟩
  | group g l hg ih =>
      rw [groupwise_append hn hg, List.mem_append] at hb
      exact hb.elim (fun hb => ⟨g, hb⟩) ih

/-- Groups that become `m` entries each. -/
lemma length_groupwise {m : ℕ} {l : List α} (hn : 0 < n) (hf : ∀ g, (f g).length = m) :
    (groupwise n f l).length = m * ((l.length + n - 1) / n) := by
  induction l using group_induction hn with
  | nil => simp [Nat.div_eq_of_lt (Nat.sub_lt hn one_pos)]
  | short g hg hlt =>
      have hpos : 0 < g.length := List.length_pos_iff.mpr hg
      have hone : (g.length + n - 1) / n = 1 := by
        rw [show g.length + n - 1 = g.length - 1 + n by omega, Nat.add_div_right _ hn,
          Nat.div_eq_of_lt (by omega)]
      rw [groupwise_of_length_le hg hlt.le, hf, hone, mul_one]
  | group g l hg ih =>
      have hstep : (n + l.length + n - 1) / n = (l.length + n - 1) / n + 1 := by
        rw [show n + l.length + n - 1 = l.length + n - 1 + n by omega, Nat.add_div_right _ hn]
      rw [groupwise_append hn hg, List.length_append, List.length_append, hf, ih, hg, hstep]
      ring

/-- Groups that are all full are served one after the other. -/
lemma groupwise_append_of_length {k : ℕ} {a b : List α} (hn : 0 < n) (ha : a.length = n * k) :
    groupwise n f (a ++ b) = groupwise n f a ++ groupwise n f b := by
  induction k generalizing a with
  | zero =>
      obtain rfl : a = [] := List.length_eq_zero_iff.mp (by omega)
      rw [groupwise_nil, List.nil_append, List.nil_append]
  | succ k ih =>
      have hlen : (a.take n).length = n := by
        rw [List.length_take, ha, mul_add]
        omega
      have hrest : (a.drop n).length = n * k := by
        rw [List.length_drop, ha, mul_add]
        omega
      rw [← List.take_append_drop n a, List.append_assoc, groupwise_append hn hlen,
        groupwise_append hn hlen, ih hrest, List.append_assoc]

/-- The `k` groups of a list. -/
lemma groupwise_eq_flatMap {k : ℕ} {l : List α} (hn : 0 < n) (hl : l.length = n * k) :
    groupwise n f l = (List.range k).flatMap fun i => f ((l.drop (n * i)).take n) := by
  induction k generalizing l with
  | zero =>
      obtain rfl : l = [] := List.length_eq_zero_iff.mp (by omega)
      simp
  | succ k ih =>
      have hlen : (l.take n).length = n := by
        rw [List.length_take, hl, mul_add]
        omega
      have hrest : (l.drop n).length = n * k := by
        rw [List.length_drop, hl, mul_add]
        omega
      calc groupwise n f l = groupwise n f (l.take n ++ l.drop n) := by rw [List.take_append_drop]
        _ = f (l.take n) ++ groupwise n f (l.drop n) := groupwise_append hn hlen
        _ = f (l.take n)
            ++ (List.range k).flatMap fun i => f (((l.drop n).drop (n * i)).take n) := by
          rw [ih hrest]
        _ = (List.range (k + 1)).flatMap fun i => f ((l.drop (n * i)).take n) := by
          rw [List.range_succ_eq_map, List.flatMap_cons, List.flatMap_map]
          simp [List.drop_drop, mul_add, add_comm]

/-! ### Digits -/

/-- The number of `w` digits in base `r` whose leading digits are those of the list; the others
are zero. -/
def leading (r : ℕ) : ℕ → List ℕ → ℕ
  | w + 1, d :: ds => d * r ^ w + leading r w ds
  | _, _ => 0

/-- The digit at place `i`, from the left, of a number of `w` digits in base `r`. -/
def digit (r w v i : ℕ) : ℕ := v / r ^ (w - 1 - i) % r

variable {r w v i : ℕ} {ds : List ℕ}

@[simp] lemma leading_nil : leading r w [] = 0 := by
  cases w <;> rfl

@[simp] lemma leading_cons {d : ℕ} : leading r (w + 1) (d :: ds) = d * r ^ w + leading r w ds := rfl

lemma digit_succ : digit r (w + 1) v (i + 1) = digit r w v i := by
  rw [digit, digit]
  congr 3
  omega

lemma digit_lt (hr : 0 < r) : digit r w v i < r := Nat.mod_lt _ hr

/-- A number shifted in on the left does not touch the digits to the right of it. -/
lemma digit_add {d u : ℕ} (hr : 0 < r) (hi : i < w) :
    digit r w (d * r ^ w + u) i = digit r w u i := by
  have hpow : r ^ w = r ^ (w - 1 - i) * (r ^ i * r) := by
    rw [← pow_succ, ← pow_add]
    congr 1
    omega
  have hdiv : (d * r ^ w + u) / r ^ (w - 1 - i)
      = u / r ^ (w - 1 - i) + d * r ^ i * r := by
    rw [hpow, show d * (r ^ (w - 1 - i) * (r ^ i * r)) = r ^ (w - 1 - i) * (d * r ^ i * r) by ring,
      Nat.mul_add_div (pow_pos hr _), add_comm]
  rw [digit, digit, hdiv, Nat.add_mul_mod_self_right]

lemma leading_lt (hds : ∀ d ∈ ds, d < r) (hr : 0 < r) : leading r w ds < r ^ w := by
  induction w generalizing ds with
  | zero =>
      cases ds <;> simp [leading]
  | succ w ih =>
      cases ds with
      | nil =>
          rw [leading_nil]
          exact pow_pos hr _
      | cons d ds =>
          have hd : d + 1 ≤ r := hds d (by simp)
          have hrest : leading r w ds < r ^ w := ih fun e he => hds e (by simp [he])
          calc d * r ^ w + leading r w ds < d * r ^ w + r ^ w := by omega
            _ = (d + 1) * r ^ w := by ring
            _ ≤ r * r ^ w := Nat.mul_le_mul_right _ hd
            _ = r ^ (w + 1) := by ring

/-- Collecting the digits from the left and shifting them up by the missing places. -/
lemma foldl_mul_pow (hlen : ds.length ≤ w) (acc : ℕ) :
    ds.foldl (fun v d => v * r + d) acc * r ^ (w - ds.length) = acc * r ^ w + leading r w ds := by
  induction ds generalizing acc w with
  | nil => simp
  | cons d ds ih =>
      cases w with
      | zero => simp at hlen
      | succ w =>
          have hlen' : ds.length ≤ w := by simpa using hlen
          rw [List.foldl_cons, List.length_cons, Nat.add_sub_add_right, ih hlen', leading_cons]
          ring

/-- The digits of a number made of digits. -/
lemma digit_leading (hds : ∀ d ∈ ds, d < r) (hlen : ds.length ≤ w) (hi : i < w) :
    digit r w (leading r w ds) i = ds.getD i 0 := by
  induction ds generalizing w i with
  | nil =>
      rw [leading_nil, digit, Nat.zero_div, Nat.zero_mod]
      rfl
  | cons d ds ih =>
      cases w with
      | zero => simp at hi
      | succ w =>
          have hd : d < r := hds d (by simp)
          have hrest : ∀ e ∈ ds, e < r := fun e he => hds e (by simp [he])
          have hr : 0 < r := by omega
          rw [leading_cons]
          cases i with
          | zero =>
              have hlt := leading_lt (w := w) hrest hr
              rw [digit, Nat.add_sub_cancel, Nat.sub_zero, mul_comm, Nat.mul_add_div (pow_pos hr _),
                Nat.div_eq_of_lt hlt, add_zero, Nat.mod_eq_of_lt hd]
              rfl
          | succ i =>
              have hi' : i < w := by omega
              rw [digit_succ, digit_add hr hi', ih hrest (by simpa using hlen) hi']
              rfl

/-- A number made of its own leading digits, the others being zero. -/
lemma leading_map_digit {t : ℕ} (hr : 0 < r) (ht : t ≤ w) (hv : v < r ^ w)
    (hdvd : r ^ (w - t) ∣ v) : leading r w ((List.range t).map (digit r w v)) = v := by
  induction t generalizing w v with
  | zero =>
      have hzero : v = 0 := Nat.eq_zero_of_dvd_of_lt hdvd hv
      simp [hzero]
  | succ t ih =>
      cases w with
      | zero => simp at ht
      | succ w =>
          have hlt : v / r ^ w < r := by
            rw [Nat.div_lt_iff_lt_mul (pow_pos hr _), ← pow_succ']
            exact hv
          have hdigits : (List.range t).map (fun i => digit r (w + 1) v (i + 1))
              = (List.range t).map (digit r w (v % r ^ w)) := by
            refine List.map_congr_left fun i hi => ?_
            have hi' : i < w := by
              have := List.mem_range.mp hi
              omega
            calc digit r (w + 1) v (i + 1) = digit r w (v / r ^ w * r ^ w + v % r ^ w) i := by
                  rw [digit_succ, Nat.div_add_mod']
              _ = digit r w (v % r ^ w) i := digit_add hr hi'
          have hrest : leading r w ((List.range t).map (digit r w (v % r ^ w))) = v % r ^ w := by
            refine ih (by omega) (Nat.mod_lt _ (pow_pos hr _)) ?_
            rw [Nat.dvd_mod_iff (pow_dvd_pow r (by omega))]
            simpa using hdvd
          rw [List.range_succ_eq_map, List.map_cons, List.map_map, leading_cons]
          have hfirst : digit r (w + 1) v 0 = v / r ^ w := by
            rw [digit, Nat.add_sub_cancel, Nat.sub_zero, Nat.mod_eq_of_lt hlt]
          calc digit r (w + 1) v 0 * r ^ w
                + leading r w ((List.range t).map (fun i => digit r (w + 1) v (i + 1)))
              = v / r ^ w * r ^ w + v % r ^ w := by rw [hfirst, hdigits, hrest]
            _ = v := Nat.div_add_mod' v (r ^ w)

end Foundation
