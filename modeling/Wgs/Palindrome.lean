import Wgs.Foundation.MachineInt
import Wgs.Foundation.Mirrors

/-!
`C/C++/biggest-huiwen.cpp`: the longest palindrome in a string.

From every place, and from between it and the next one, the program goes outwards as long as the
two characters agree, and keeps the longest part that it has seen.  What it sees about a centre is
the longest palindrome there (`expandLoop_ends`), and the only centre that it leaves out is the last
place, about which there is one character (`longestLoop_ends`).

The length of the string is stored in an `int`.
-/

namespace Wgs.Palindrome

open Foundation

/-! ### The program -/

/-- `s.substr(pos, len)`, of which both arguments are unsigned. -/
def substr (s : Cells Char) (pos len : ℤ) : Option (Cells Char) :=
  if toUInt64 pos ≤ s.length then
    some ((s.drop (toUInt64 pos).toNat).take (toUInt64 len).toNat)
  else none

/-- `while (l >= 0 && r <= n-1 && s[l] == s[r]) { l--; r++; }` -/
def expandLoop (s : Cells Char) (n : ℤ) : ℕ → ℤ × ℤ → Option (ℤ × ℤ) :=
  whileLoop
    (fun (l, r) => do
      if l ≥ 0 ∧ r ≤ n - 1 then return (← s.load l) = (← s.load r) else return false)
    (fun _ (l, r) => return (l - 1, r + 1))

def expandAroundCenter (fuel : ℕ) (s : Cells Char) (c1 c2 : ℤ) : Option (Cells Char) := do
  let n := toInt32 s.length
  let (l, r) ← expandLoop s n fuel (c1, c2)
  substr s (l + 1) (r - l - 1)

/-- `for (int i = 0; i < n-1; i++)`, from some `i` on. -/
def longestLoop (s : Cells Char) (n : ℤ) : ℕ → ℤ × Cells Char → Option (ℤ × Cells Char) :=
  whileLoop
    (fun (i, _) => return i < n - 1)
    (fun fuel (i, longest) => do
      let p1 ← expandAroundCenter fuel s i i
      let longest := if p1.length > longest.length then p1 else longest
      let p2 ← expandAroundCenter fuel s i (i + 1)
      let longest := if p2.length > longest.length then p2 else longest
      return (i + 1, longest))

def longestPalindromeSimple (fuel : ℕ) (s : Cells Char) : Option (Cells Char) := do
  let n := toInt32 s.length
  if n = 0 then return []
  else
    let longest ← substr s 0 1
    let (_, longest) ← longestLoop s n fuel (0, longest)
    return longest

/-- `p` is a longest one of the palindromes in `s`. -/
def IsLongest (s p : Cells Char) : Prop :=
  p <:+: s ∧ p.Palindrome ∧ ∀ q, q <:+: s → q.Palindrome → q.length ≤ p.length

/-! ### About one centre -/

variable {s p : Cells Char} {i c l r : ℤ}

/-- The arguments of `substr` that are in the string give a segment of it. -/
lemma substr_eq (hl : 0 ≤ l) (hlr : l ≤ r + 1) (hr : r < s.length) (hlen : s.length ≤ 2147483647) :
    substr s l (r - l + 1) = some (s.segment l r) := by
  have hpos : toUInt64 l = l := toUInt64_of_isUInt64 ⟨hl, by omega⟩
  have hcount : toUInt64 (r - l + 1) = r - l + 1 := toUInt64_of_isUInt64 ⟨by omega, by omega⟩
  rw [substr, hpos, hcount, if_pos (by omega), Cells.segment]
  congr 3
  omega

/-- **The loop** goes to where the characters differ or the string ends. -/
lemma expandLoop_ends (hi : 0 ≤ i) (hic : i ≤ c) (hci : c ≤ i + 1) (hc : c < s.length) :
    Ends (fun fuel => expandLoop s s.length fuel (i, c)) fun t =>
      -1 ≤ t.1 ∧ t.1 + 1 ≤ t.2 ∧ t.2 ≤ s.length ∧ t.1 + t.2 = i + c
        ∧ Mirrored s.cell (t.1 + 1) (t.2 - 1)
        ∧ ∀ a b : ℤ, 0 ≤ a → b < s.length → a + b = i + c → Mirrored s.cell a b →
          b - a ≤ t.2 - t.1 - 2 := by
  refine Ends.whileLoop
    (I := fun t : ℤ × ℤ => -1 ≤ t.1 ∧ t.1 ≤ t.2 ∧ t.2 ≤ s.length ∧ t.1 + t.2 = i + c
      ∧ Mirrored s.cell (t.1 + 1) (t.2 - 1))
    (fun t => (t.1 + 1).toNat) (fun t ht => ?_)
    ⟨by dsimp only; omega, hic, hc.le, rfl, .of_le (by dsimp only; omega)⟩
  obtain ⟨l, r⟩ := t
  obtain ⟨hl, hlr, hr, hcentre, hmirror⟩ := ht
  dsimp only at *
  -- the loop does not end with one place
  have hout : ¬ (0 ≤ l ∧ r < s.length ∧ s.cell l = s.cell r) → -1 ≤ l ∧ l + 1 ≤ r
      ∧ r ≤ s.length ∧ l + r = i + c ∧ Mirrored s.cell (l + 1) (r - 1)
      ∧ ∀ a b : ℤ, 0 ≤ a → b < s.length → a + b = i + c → Mirrored s.cell a b →
        b - a ≤ r - l - 2 := by
    intro hend
    refine ⟨hl, ?_, hr, hcentre, hmirror, fun a b ha hb hab h => ?_⟩
    · by_contra hsame
      obtain rfl : l = r := by omega
      exact hend ⟨by omega, by omega, rfl⟩
    · exact h.sub_le ha hb hlr (by omega) hend
  by_cases hin : l ≥ 0 ∧ r ≤ s.length - 1
  · obtain ⟨hl₀, hrn⟩ := hin
    have hleft := Cells.load_eq (s := s) hl₀ (by omega)
    have hright := Cells.load_eq (s := s) (i := r) (by omega) (by omega)
    by_cases heq : s.cell l = s.cell r
    · refine Or.inl ⟨by simp [hl₀, hrn, hleft, hright, heq], .of_eq (fun _ => rfl) ?_⟩
      refine ⟨⟨by omega, by omega, by omega, by omega, ?_⟩, by omega⟩
      dsimp only
      rw [sub_add_cancel, add_sub_cancel_right]
      exact hmirror.extend heq
    · exact Or.inr ⟨by simp [hl₀, hrn, hleft, hright, heq], hout fun h => heq h.2.2⟩
  · exact Or.inr ⟨by simp only [hin, if_false]; rfl, hout fun h => hin ⟨h.1, by omega⟩⟩

/-- **One centre**: the longest palindrome about it, which is empty if the two characters at it
differ. -/
lemma expandAroundCenter_ends (hlen : s.length ≤ 2147483647) (hi : 0 ≤ i) (hic : i ≤ c)
    (hci : c ≤ i + 1) (hc : c < s.length) :
    Ends (fun fuel => expandAroundCenter fuel s i c) fun p => p <:+: s ∧ p.Palindrome
      ∧ ∀ a b : ℤ, 0 ≤ a → b < s.length → a + b = i + c → Mirrored s.cell a b →
        b - a + 1 ≤ p.length := by
  have hn : toInt32 s.length = s.length := toInt32_of_isInt32 ⟨by omega, by omega⟩
  simp only [expandAroundCenter, hn]
  refine (expandLoop_ends hi hic hci hc).bind fun t ht => ?_
  obtain ⟨l, r⟩ := t
  obtain ⟨hl, hlr, hr, -, hmirror, hlongest⟩ := ht
  dsimp only at *
  have hsub := substr_eq (s := s) (l := l + 1) (r := r - 1) (by omega) (by omega) (by omega) hlen
  rw [show r - 1 - (l + 1) + 1 = r - l - 1 by ring] at hsub
  refine .of_eq (fun _ => hsub) ⟨segment_isInfix s _ _, ?_, fun a b ha hb hab h => ?_⟩
  · exact (palindrome_segment_iff (by omega) (by omega)).mpr hmirror
  · have hle := hlongest a b ha hb hab h
    rw [Cells.length_segment (by omega) (by omega)]
    omega

/-! ### All centres -/

/-- What the program keeps: a palindrome as long as those about the centres that it has been to. -/
def LongestBelow (s p : Cells Char) (i : ℤ) : Prop :=
  p <:+: s ∧ p.Palindrome ∧ 1 ≤ p.length
    ∧ ∀ a b : ℤ, 0 ≤ a → b < s.length → a + b < i → Mirrored s.cell a b → b - a + 1 ≤ p.length

/-- One more centre. -/
lemma LongestBelow.next {q : Cells Char} (h : LongestBelow s p i) (hqpart : q <:+: s)
    (hq : q.Palindrome)
    (hlongest : ∀ a b : ℤ, 0 ≤ a → b < s.length → a + b = i → Mirrored s.cell a b →
      b - a + 1 ≤ q.length) :
    LongestBelow s (if q.length > p.length then q else p) (i + 1) := by
  obtain ⟨hpart, hp, hpos, hbelow⟩ := h
  have hle : ∀ a b : ℤ, 0 ≤ a → b < s.length → a + b < i + 1 → Mirrored s.cell a b →
      b - a + 1 ≤ max p.length q.length := by
    intro a b ha hb hab hm
    rcases (show a + b < i ∨ a + b = i by omega) with hlt | heq
    · have := hbelow a b ha hb hlt hm
      omega
    · have := hlongest a b ha hb heq hm
      omega
  split_ifs with hlonger
  · refine ⟨hqpart, hq, by omega, fun a b ha hb hab hm => ?_⟩
    have := hle a b ha hb hab hm
    omega
  · refine ⟨hpart, hp, hpos, fun a b ha hb hab hm => ?_⟩
    have := hle a b ha hb hab hm
    omega

/-- **All centres but the last place**, about which there is one character. -/
lemma longestLoop_ends (hlen : s.length ≤ 2147483647) (hpos : 1 ≤ s.length)
    (hp : LongestBelow s p 0) :
    Ends (fun fuel => longestLoop s s.length fuel (0, p)) fun t => IsLongest s t.2 := by
  refine Ends.whileLoop
    (I := fun t : ℤ × Cells Char => 0 ≤ t.1 ∧ t.1 ≤ s.length - 1 ∧ LongestBelow s t.2 (2 * t.1))
    (fun t => (s.length - t.1).toNat) (fun t ht => ?_)
    ⟨le_rfl, by dsimp only; omega, by rwa [mul_zero]⟩
  obtain ⟨i, p⟩ := t
  obtain ⟨hi, hin, hp⟩ := ht
  dsimp only at *
  by_cases hlt : i < s.length - 1
  · refine Or.inl ⟨by simp [hlt], ?_⟩
    refine (expandAroundCenter_ends hlen hi le_rfl (by omega) (by omega)).bind fun p₁ hp₁ => ?_
    refine (expandAroundCenter_ends hlen hi (by omega) le_rfl (by omega)).bind fun p₂ hp₂ => ?_
    have hodd := hp.next hp₁.1 hp₁.2.1 fun a b ha hb hab => hp₁.2.2 a b ha hb (by omega)
    have heven := hodd.next hp₂.1 hp₂.2.1 fun a b ha hb hab => hp₂.2.2 a b ha hb (by omega)
    rw [show 2 * i + 1 + 1 = 2 * (i + 1) by ring] at heven
    exact .of_eq (fun _ => rfl) ⟨⟨by omega, by omega, heven⟩, by omega⟩
  · refine Or.inr ⟨by simp [hlt], hp.1, hp.2.1, fun q hq hpal => ?_⟩
    obtain ⟨a, ha, hlast, heq⟩ := exists_segment_of_isInfix hq
    have hmirror : Mirrored s.cell a (a + q.length - 1) := by
      rw [← palindrome_segment_iff ha hlast, ← heq]
      exact hpal
    by_cases hshort : q.length ≤ 1
    · exact hshort.trans hp.2.2.1
    · have := hp.2.2.2 a _ ha hlast (by omega) hmirror
      omega

/-- **The longest palindrome**: for every string whose length is an `int` a longest palindrome in it
is returned, and about every centre that the program goes to, the arguments of `substr` are in the
string. -/
theorem longestPalindromeSimple_longest (hlen : s.length ≤ 2147483647) :
    (∃ p, Returns (fun fuel => longestPalindromeSimple fuel s) p ∧ IsLongest s p)
      ∧ ∀ i c : ℤ, 0 ≤ i → i < (s.length : ℤ) - 1 → c = i ∨ c = i + 1 →
        ∃ l r, Returns (fun fuel => expandLoop s s.length fuel (i, c)) (l, r)
          ∧ 0 ≤ l + 1 ∧ 0 ≤ r - l - 1 ∧ l + 1 + (r - l - 1) ≤ s.length := by
  have hn : toInt32 s.length = s.length := toInt32_of_isInt32 ⟨by omega, by omega⟩
  refine ⟨?_, fun i c hi hlt hc => ?_⟩
  · by_cases hzero : s.length = 0
    · obtain rfl := List.length_eq_zero_iff.mp hzero
      refine ⟨[], .of_add 0 fun fuel => rfl, List.infix_rfl, .nil, fun q hq _ => ?_⟩
      rw [List.eq_nil_of_infix_nil hq]
    · have hfirst := substr_eq (s := s) (l := 0) (r := 0) le_rfl (by decide) (by omega) hlen
      have hone : LongestBelow s (s.segment 0 0) 0 := by
        refine ⟨segment_isInfix s 0 0, ?_, ?_, fun a b ha hb hab _ => ?_⟩
        · exact (palindrome_segment_iff le_rfl (by omega)).mpr (.of_le le_rfl)
        · rw [Cells.length_segment le_rfl (by omega)]
          decide
        · have := Cells.length_segment (s := s) (l := 0) (r := 0) le_rfl (by omega)
          omega
      suffices h : Ends (fun fuel => longestPalindromeSimple fuel s) (IsLongest s) from h
      simp only [longestPalindromeSimple, hn, Nat.cast_eq_zero, hzero, if_false]
      have hsub : substr s 0 1 = some (s.segment 0 0) := hfirst
      simp only [hsub, Option.bind_eq_bind, Option.bind_some]
      exact (longestLoop_ends hlen (by omega) hone).bind fun t ht => .of_eq (fun _ => rfl) ht
  · obtain ⟨⟨l, r⟩, hreturns, hl, hlr, hr, -⟩ :=
      expandLoop_ends (s := s) (i := i) (c := c) hi (by omega) (by omega) (by omega)
    dsimp only at hl hlr hr
    exact ⟨l, r, hreturns, by omega, by omega, by omega⟩

/-- The word `babad`. -/
theorem longestPalindromeSimple_babad :
    (∃ p, Returns (fun fuel => longestPalindromeSimple fuel ['b', 'a', 'b', 'a', 'd']) p
      ∧ IsLongest ['b', 'a', 'b', 'a', 'd'] p)
      ∧ ∃ l r, Returns (fun fuel => expandLoop ['b', 'a', 'b', 'a', 'd'] 5 fuel (1, 1)) (l, r)
          ∧ l + 1 + (r - l - 1) ≤ 5 := by
  have h := longestPalindromeSimple_longest (s := ['b', 'a', 'b', 'a', 'd']) (by decide)
  obtain ⟨l, r, hreturns, -, -, hr⟩ := h.2 1 1 (by decide) (by decide) (Or.inl rfl)
  exact ⟨h.1, l, r, hreturns, hr⟩

/-- **A string of 2³² characters**: the `int` that holds its length is 0, and the empty string is
returned. -/
theorem longestPalindromeSimple_overflow :
    Returns (fun fuel => longestPalindromeSimple fuel (List.replicate 4294967296 'a')) []
      ∧ ¬ ∃ p, Returns (fun fuel => longestPalindromeSimple fuel (List.replicate 4294967296 'a')) p
        ∧ IsLongest (List.replicate 4294967296 'a') p := by
  have hreturns : Returns
      (fun fuel => longestPalindromeSimple fuel (List.replicate 4294967296 'a')) [] := by
    refine .of_add 0 fun fuel => ?_
    have hn : toInt32 (4294967296 : ℕ) = 0 := by decide
    rw [longestPalindromeSimple, List.length_replicate, hn]
    rfl
  refine ⟨hreturns, ?_⟩
  rintro ⟨p, hreturns', -, -, hlongest⟩
  obtain rfl := hreturns.unique hreturns'
  have hqpart : ['a'] <:+: List.replicate 4294967296 'a' := by
    refine ⟨[], List.replicate 4294967295 'a', ?_⟩
    rw [List.nil_append, List.singleton_append, ← List.replicate_succ]
  exact absurd (hlongest ['a'] hqpart (.singleton 'a')) (by decide)

end Wgs.Palindrome
