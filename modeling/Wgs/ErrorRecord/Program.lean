import Mathlib.Data.List.DropRight
import Wgs.Foundation.MachineInt
import Wgs.Foundation.Tally

/-!
The error-record module of `C/huawei/8-2.c`.

The program reads paths and line numbers, keeps of each path the name behind the last backslash,
sorts the records by name and line number, merges neighbours that agree in both, sorts what is left
by count and, where counts agree, by `pos`, and prints the first eight.  `pos` is the number of the
input a record was made from.  Where several inputs are merged the record kept is the one that the
first sort put first, and the standard leaves open which one that is.

The program is asked to print groups of equal count in the order in which they first appear in the
input; `Reports` says what it is asked, in terms of the keys of the inputs and their ranking.  Both
comparisons order the records they are applied to (`consistentOn_cmp`, `consistentOn_cmp2`), so
the contract of `qsort` applies.
-/

namespace Wgs

namespace ErrorRecord

open Foundation

/-! ### The program -/

/-- What one `scanf("%s%d", path, &row)` reads. -/
structure Line where
  path : List UInt8
  row : ℤ
  path_nul : 0 ∉ path
  row_int : IsInt32 row

structure Rec where
  name : List UInt8
  cut : List UInt8
  row : ℤ
  count : ℕ
  /-- The number of the input. -/
  pos : ℕ
  deriving DecidableEq

/-- Bytes are compared up to the first difference; a string ends in a zero. -/
def strcmp : List UInt8 → List UInt8 → ℤ
  | [], [] => 0
  | [], d :: _ => -d.toNat
  | c :: _, [] => c.toNat
  | c :: cs, d :: ds => if c = d then strcmp cs ds else (c.toNat : ℤ) - d.toNat

def cmp (x y : Rec) : ℤ :=
  let tmp := strcmp x.name y.name
  if tmp = 0 then toInt32 (x.row - y.row) else tmp

def cmp2 (x y : Rec) : ℤ :=
  let tmp := toInt32 ((y.count : ℤ) - x.count)
  if tmp = 0 then toInt32 ((x.pos : ℤ) - y.pos) else tmp

/-- The character `\`. -/
def backslash : UInt8 := 92

/-- The loop of `get_split`, with `i + 1` bytes to look at. -/
def getSplitLoop (data : List UInt8) : ℕ → ℕ
  | 0 => 0
  | i + 1 => if data[i]? = some backslash then i else getSplitLoop data i

/-- The index of the last backslash, or 0. -/
def getSplit (data : List UInt8) : ℕ := getSplitLoop data data.length

/-- The loop that reads the input, with `data.length` records read.  It is stuck where a string
does not fit in its array: `path[1000]`, `name[500]` or `cut[20]`, or a record in `data[1000]`. -/
def readLoop (data : List Rec) : List Line → Option (List Rec)
  | [] => some data
  | line :: lines => do
      guard (line.path.length < 1000)
      let name := line.path.drop (getSplit line.path + 1)
      guard (data.length < 1000)
      guard (name.length < 500)
      let cut := if name.length > 16 then name.drop (name.length - 16) else name
      guard (cut.length < 20)
      readLoop (data ++ [⟨name, cut, line.row, 1, data.length⟩]) lines

/-- The loop that merges: `res[0 .. j - 1)` is `done` and `res[j - 1]` is `last`.  The array `res`
is as long as `data`, of which every element read adds at most one. -/
def mergeLoop (done : List Rec) (last : Rec) : List Rec → List Rec
  | [] => done ++ [last]
  | x :: xs =>
      if strcmp x.name last.name = 0 ∧ x.row = last.row then
        mergeLoop done { last with count := last.count + 1 } xs
      else mergeLoop (done ++ [last]) x xs

/-- What `printf("%s %d %d\n", ..)` is given. -/
structure Printed where
  cut : List UInt8
  row : ℤ
  count : ℕ
  deriving DecidableEq

def Rec.printed (x : Rec) : Printed := ⟨x.cut, x.row, x.count⟩

/-- What a run leaves: the records of `res`, and the lines it printed. -/
structure Report where
  res : List Rec
  printed : List Printed

/-- Without input the first record merged is not initialised. -/
def main (qsort : (Rec → Rec → ℤ) → List Rec → List Rec) (lines : List Line) : Option Report := do
  let data ← readLoop [] lines
  match qsort cmp data with
  | [] => none
  | x :: xs =>
      let res := qsort cmp2 (mergeLoop [] x xs)
      let j := if res.length > 8 then 8 else res.length
      return ⟨res, (res.take j).map Rec.printed⟩

/-! ### What it is asked to report -/

/-- The part of a path behind its last backslash. -/
def baseName (path : List UInt8) : List UInt8 := path.rtakeWhile (· ≠ backslash)

/-- What two inputs agree in when they are the same error. -/
structure Key where
  name : List UInt8
  row : ℤ
  deriving DecidableEq

def Line.key (line : Line) : Key := ⟨baseName line.path, line.row⟩

def Rec.key (x : Rec) : Key := ⟨x.name, x.row⟩

/-- An input the program is made for: the path has a backslash, the line number is not negative. -/
def Line.Valid (line : Line) : Prop := backslash ∈ line.path ∧ 0 ≤ line.row

/-- The inputs fit in the arrays of the program. -/
def Fits (lines : List Line) : Prop :=
  lines.length ≤ 1000
    ∧ ∀ line ∈ lines, line.path.length < 1000 ∧ (baseName line.path).length < 500

/-- The report for inputs with these keys: each key once with the number of times it comes, and
the first eight of the ranking printed in order, each with the last 16 bytes of its name. -/
structure Reports (keys : List Key) (r : Report) : Prop where
  merged : (r.res.map fun x => (x.key, x.count)).Perm (keys.dedup.map fun k => (k, keys.count k))
  first : (r.res.take 8).map Rec.key = (ranking keys).take 8
  printed : r.printed = ((ranking keys).take 8).map fun k => ⟨k.name.rtake 16, k.row, keys.count k⟩

/-! ### The last backslash -/

lemma getSplitLoop_lt (data : List UInt8) {i : ℕ} (hi : 0 < i) : getSplitLoop data i < i := by
  induction i with
  | zero => exact absurd hi (lt_irrefl 0)
  | succ i ih =>
      rw [getSplitLoop]
      split_ifs with hc
      · exact Nat.lt_succ_self i
      · rcases i.eq_zero_or_pos with rfl | hpos
        · exact Nat.zero_lt_one
        · exact (ih hpos).trans (Nat.lt_succ_self i)

lemma getSplitLoop_append (l : List UInt8) (c : UInt8) {i : ℕ} (hi : i ≤ l.length) :
    getSplitLoop (l ++ [c]) i = getSplitLoop l i := by
  induction i with
  | zero => rfl
  | succ i ih =>
      rw [getSplitLoop, getSplitLoop, ih (Nat.le_of_succ_le hi),
        List.getElem?_append_left (Nat.lt_of_succ_le hi)]

/-- What the program keeps of a path is its base name. -/
lemma drop_getSplit {path : List UInt8} (h : backslash ∈ path) :
    path.drop (getSplit path + 1) = baseName path := by
  induction path using List.reverseRecOn with
  | nil => exact absurd h List.not_mem_nil
  | append_singleton l c ih =>
      rw [baseName, getSplit, List.length_append, List.length_singleton, getSplitLoop,
        List.getElem?_concat_length]
      by_cases hc : c = backslash
      · rw [if_pos (by rw [hc]), List.rtakeWhile_concat_neg _ _ _ (by simpa using hc),
          List.drop_eq_nil_of_le (by simp)]
      · have hl : backslash ∈ l := by
          rcases List.mem_append.mp h with hl | hl
          · exact hl
          · exact absurd (List.mem_singleton.mp hl).symm hc
        have hlt := getSplitLoop_lt l (List.length_pos_of_mem hl)
        rw [if_neg (by simpa using hc), getSplitLoop_append l c le_rfl,
          List.rtakeWhile_concat_pos _ _ _ (by simpa using hc), ← baseName, ← ih hl,
          List.drop_append_of_le_length (by omega)]
        rfl

lemma baseName_sublist (path : List UInt8) : (baseName path).Sublist path :=
  (List.rtakeWhile_suffix _ _).sublist

/-! ### The comparisons -/

lemma strcmp_swap (s t : List UInt8) : strcmp t s = -strcmp s t := by
  induction s generalizing t with
  | nil => cases t <;> simp [strcmp]
  | cons c cs ih =>
      cases t with
      | nil => rfl
      | cons d ds =>
          rw [strcmp, strcmp]
          by_cases hcd : c = d
          · rw [if_pos hcd, if_pos hcd.symm, ih]
          · rw [if_neg hcd, if_neg (Ne.symm hcd), neg_sub]

lemma strcmp_self (s : List UInt8) : strcmp s s = 0 := by
  have hswap := strcmp_swap s s
  omega

lemma toNat_pos {c : UInt8} (hc : c ≠ 0) : 0 < c.toNat :=
  Nat.pos_of_ne_zero fun h => hc (UInt8.toNat_inj.mp h)

lemma toNat_ne {c d : UInt8} (hcd : c ≠ d) : c.toNat ≠ d.toNat :=
  fun h => hcd (UInt8.toNat_inj.mp h)

/-- Strings without a zero are equal if they compare so. -/
lemma strcmp_eq_zero {s t : List UInt8} (hs : 0 ∉ s) (ht : 0 ∉ t) : strcmp s t = 0 ↔ s = t := by
  refine ⟨fun h => ?_, fun h => h ▸ strcmp_self s⟩
  induction s generalizing t with
  | nil =>
      cases t with
      | nil => rfl
      | cons d ds =>
          have hd := toNat_pos (List.ne_of_not_mem_cons ht).symm
          rw [strcmp] at h
          omega
  | cons c cs ih =>
      cases t with
      | nil =>
          have hc := toNat_pos (List.ne_of_not_mem_cons hs).symm
          rw [strcmp] at h
          omega
      | cons d ds =>
          rw [strcmp] at h
          split_ifs at h with hcd
          · rw [hcd, ih (List.not_mem_of_not_mem_cons hs) (List.not_mem_of_not_mem_cons ht) h]
          · have hne := toNat_ne hcd
            omega

lemma strcmp_trans {s t u : List UInt8} (hs : 0 ∉ s) (ht : 0 ∉ t) (hst : strcmp s t ≤ 0)
    (htu : strcmp t u ≤ 0) : strcmp s u ≤ 0 := by
  induction s generalizing t u with
  | nil => cases u <;> simp [strcmp]
  | cons c cs ih =>
      cases t with
      | nil =>
          have hc := toNat_pos (List.ne_of_not_mem_cons hs).symm
          rw [strcmp] at hst
          omega
      | cons d ds =>
          cases u with
          | nil =>
              have hd := toNat_pos (List.ne_of_not_mem_cons ht).symm
              rw [strcmp] at htu
              omega
          | cons e es =>
              rw [strcmp] at hst htu ⊢
              split_ifs at hst htu with hcd hde hde
              · rw [if_pos (hcd.trans hde)]
                exact ih (List.not_mem_of_not_mem_cons hs) (List.not_mem_of_not_mem_cons ht) hst htu
              · rw [if_neg (hcd ▸ hde), hcd]
                exact htu
              · rw [if_neg (hde ▸ hcd), ← hde]
                exact hst
              -- both differ here: so do the ends, by the sum of the differences
              · have hcd' := toNat_ne hcd
                have hce : c ≠ e := by
                  rintro rfl
                  omega
                rw [if_neg hce]
                omega

/-- A record as the inputs make it: no zero in the name, a line number that is not negative. -/
structure Rec.Sound (x : Rec) : Prop where
  name_nul : 0 ∉ x.name
  row_nonneg : 0 ≤ x.row
  row_int : IsInt32 x.row

section Compare

variable {x y : Rec}

/-- Line numbers are not negative, so their difference is an `int`. -/
lemma Rec.Sound.cmp_eq (hx : x.Sound) (hy : y.Sound) :
    cmp x y = if strcmp x.name y.name = 0 then x.row - y.row else strcmp x.name y.name := by
  have hx' := hx.row_int
  have hy' := hy.row_int
  have hdiff : toInt32 (x.row - y.row) = x.row - y.row := by
    apply toInt32_of_isInt32
    have hxrow := hx.row_nonneg
    have hyrow := hy.row_nonneg
    rw [IsInt32] at hx' hy' ⊢
    omega
  simp only [cmp, hdiff]

lemma Rec.Sound.cmp_eq_zero (hx : x.Sound) (hy : y.Sound) : cmp x y = 0 ↔ x.key = y.key := by
  rw [hx.cmp_eq hy, Rec.key, Rec.key, Key.mk.injEq, ← strcmp_eq_zero hx.name_nul hy.name_nul]
  split_ifs with h
  · rw [sub_eq_zero, and_iff_right h]
  · simp [h]

/-- The first comparison orders the records. -/
lemma consistentOn_cmp {data : List Rec} (h : ∀ x ∈ data, x.Sound) : ConsistentOn cmp data where
  antisymm x hx y hy := by
    rw [(h x hx).cmp_eq (h y hy), (h y hy).cmp_eq (h x hx), strcmp_swap x.name y.name]
    split_ifs <;> omega
  trans x hx y hy z hz hxy hyz := by
    have hname := strcmp_trans (h x hx).name_nul (h y hy).name_nul (u := z.name)
    rw [(h x hx).cmp_eq (h y hy)] at hxy
    rw [(h y hy).cmp_eq (h z hz)] at hyz
    rw [(h x hx).cmp_eq (h z hz)]
    have hle := hname (by split_ifs at hxy <;> omega) (by split_ifs at hyz <;> omega)
    split_ifs with hxz
    -- the ends agree in the name, so all three do
    · have heq := (strcmp_eq_zero (h x hx).name_nul (h z hz).name_nul).mp hxz
      rw [← heq, strcmp_swap x.name y.name] at hyz
      split_ifs at hxy hyz <;> omega
    · exact hle

/-- A record after the merge: the count and the number of the input are below 1001. -/
def Rec.Small (x : Rec) : Prop := x.count ≤ 1000 ∧ x.pos ≤ 1000

lemma Rec.Small.cmp2_eq (hx : x.Small) (hy : y.Small) :
    cmp2 x y = if x.count = y.count then (x.pos : ℤ) - y.pos else (y.count : ℤ) - x.count := by
  rw [Rec.Small] at hx hy
  have hcount : toInt32 ((y.count : ℤ) - x.count) = (y.count : ℤ) - x.count :=
    toInt32_of_isInt32 (by rw [IsInt32]; omega)
  have hpos : toInt32 ((x.pos : ℤ) - y.pos) = (x.pos : ℤ) - y.pos :=
    toInt32_of_isInt32 (by rw [IsInt32]; omega)
  simp only [cmp2, hcount, hpos, sub_eq_zero, Nat.cast_inj, eq_comm (a := y.count)]

/-- The second comparison orders the records left by the merge. -/
lemma consistentOn_cmp2 {res : List Rec} (h : ∀ x ∈ res, x.Small) : ConsistentOn cmp2 res where
  antisymm x hx y hy := by
    rw [(h x hx).cmp2_eq (h y hy), (h y hy).cmp2_eq (h x hx)]
    split_ifs <;> omega
  trans x hx y hy z hz hxy hyz := by
    rw [(h x hx).cmp2_eq (h y hy)] at hxy
    rw [(h y hy).cmp2_eq (h z hz)] at hyz
    rw [(h x hx).cmp2_eq (h z hz)]
    split_ifs at hxy hyz ⊢ <;> omega

end Compare

end ErrorRecord

end Wgs
