import Wgs.ErrorRecord.Program

/-!
What the error-record module reports.

The records read are those of the inputs, numbered (`readLoop_eq`).  After the first sort the inputs
with one key lie together, so the merge leaves one record for each key, with its count and the
number of the input that was first in the order of the sort (`mergeLoop_eq_groups`); the second
sort puts these in the ranking by that number (`main_eq`).  A sorting function can be found that
puts any input of a key first (`exists_qsort`), so the report is the one asked for, whatever the
sorting function, exactly where the ranking does not depend on the choice (`reports_iff`).
-/

namespace Wgs

namespace ErrorRecord

open Foundation

/-! ### The records read -/

/-- The record made from input number `i`. -/
def record (line : Line) (i : ℕ) : Rec :=
  ⟨baseName line.path, (baseName line.path).rtake 16, line.row, 1, i⟩

/-- The records made from all inputs, the first of which has number `i`. -/
def records (i : ℕ) (lines : List Line) : List Rec :=
  (lines.zipIdx i).map fun (line, i) => record line i

lemma cut_eq (name : List UInt8) :
    (if name.length > 16 then name.drop (name.length - 16) else name) = name.rtake 16 := by
  rw [List.rtake]
  split_ifs with h
  · rfl
  · rw [Nat.sub_eq_zero_of_le (not_lt.mp h), List.drop_zero]

/-- One turn of the loop that reads: the record is made if its strings and itself fit. -/
lemma readLoop_cons {line : Line} (hpath : backslash ∈ line.path) (lines : List Line)
    (data : List Rec) :
    readLoop data (line :: lines) =
      if data.length < 1000 ∧ line.path.length < 1000 ∧ (baseName line.path).length < 500
      then readLoop (data ++ [record line data.length]) lines else none := by
  have hcut : ((baseName line.path).rtake 16).length < 20 := by
    rw [List.rtake, List.length_drop]
    omega
  simp only [readLoop, drop_getSplit hpath, cut_eq, hcut, record]
  by_cases hroom : data.length < 1000
  · by_cases hlength : line.path.length < 1000
    · by_cases hname : (baseName line.path).length < 500
      · simp [hroom, hlength, hname, guard]
      · simp [hlength, hname, guard, failure]
    · simp [hlength, guard, failure]
  · simp [hroom, guard, failure]

/-- **The loop that reads**: a record for each input, if they fit. -/
lemma readLoop_eq {lines : List Line} (hvalid : ∀ line ∈ lines, line.Valid) (data : List Rec)
    (hdata : data.length ≤ 1000) :
    readLoop data lines =
      if data.length + lines.length ≤ 1000
          ∧ ∀ line ∈ lines, line.path.length < 1000 ∧ (baseName line.path).length < 500
      then some (data ++ records data.length lines) else none := by
  induction lines generalizing data with
  | nil => simp [readLoop, records, hdata]
  | cons line lines ih =>
      rw [List.forall_mem_cons] at hvalid
      have hlength : (data ++ [record line data.length]).length = data.length + 1 := by simp
      rw [readLoop_cons hvalid.1.1]
      simp only [List.forall_mem_cons, List.length_cons]
      split_ifs with hline hall hall
      · rw [ih hvalid.2 _ (by omega), hlength, if_pos ⟨by omega, hall.2.2⟩, List.append_assoc]
        rfl
      · rw [ih hvalid.2 _ (by omega), hlength,
          if_neg fun h => hall ⟨by omega, hline.2, h.2⟩]
      · exact absurd ⟨by omega, hall.2.1⟩ hline
      · rfl

section Records

variable {lines : List Line} {x : Rec}

lemma mem_records : x ∈ records 0 lines ↔ ∃ i line, lines[i]? = some line ∧ x = record line i := by
  simp only [records, List.mem_map, Prod.exists, List.mem_zipIdx_iff_getElem?]
  constructor
  · rintro ⟨line, i, hline, rfl⟩
    exact ⟨i, line, hline, rfl⟩
  · rintro ⟨i, line, hline, rfl⟩
    exact ⟨line, i, hline, rfl⟩

lemma key_record (line : Line) (i : ℕ) : (record line i).key = line.key := rfl

lemma map_key_records (i : ℕ) : (records i lines).map Rec.key = lines.map Line.key := by
  rw [records, List.map_map]
  calc (lines.zipIdx i).map (Rec.key ∘ fun (line, i) => record line i)
      = ((lines.zipIdx i).map Prod.fst).map Line.key := by rw [List.map_map]; rfl
    _ = lines.map Line.key := by rw [List.zipIdx_map_fst]

/-- The record with a number has the key of the input with that number. -/
lemma getElem?_pos_of_mem (hx : x ∈ records 0 lines) :
    (lines.map Line.key)[x.pos]? = some x.key := by
  obtain ⟨i, line, hline, rfl⟩ := mem_records.mp hx
  rw [List.getElem?_map]
  exact congrArg (Option.map Line.key) hline

lemma sound_of_mem (hvalid : ∀ line ∈ lines, line.Valid) (hx : x ∈ records 0 lines) :
    x.Sound := by
  obtain ⟨i, line, hline, rfl⟩ := mem_records.mp hx
  have hmem := List.mem_of_getElem? hline
  exact ⟨fun h => line.path_nul ((baseName_sublist line.path).subset h), (hvalid line hmem).2,
    line.row_int⟩

end Records

/-! ### The merge -/

/-- One more input for a record. -/
def Rec.again (x : Rec) : Rec := { x with count := x.count + 1 }

lemma Rec.again_iterate (x : Rec) (m : ℕ) : Rec.again^[m] x = { x with count := x.count + m } := by
  induction m with
  | zero => rfl
  | succ m ih =>
      rw [Function.iterate_succ_apply', ih]
      rfl

lemma Rec.Sound.again {x : Rec} (h : x.Sound) : x.again.Sound :=
  ⟨h.name_nul, h.row_nonneg, h.row_int⟩

/-- The loop that merges compares what is in the keys. -/
lemma mergeLoop_eq (done : List Rec) {last : Rec} {xs : List Rec} (hlast : last.Sound)
    (hxs : ∀ x ∈ xs, x.Sound) :
    mergeLoop done last xs = done ++ mergeAdjacent Rec.key Rec.again last xs := by
  induction xs generalizing done last with
  | nil => rfl
  | cons x xs ih =>
      rw [List.forall_mem_cons] at hxs
      have hkey : strcmp x.name last.name = 0 ∧ x.row = last.row ↔ x.key = last.key := by
        rw [strcmp_eq_zero hxs.1.name_nul hlast.name_nul, Rec.key, Rec.key, Key.mk.injEq]
      rw [mergeLoop, mergeAdjacent]
      split_ifs with h h' h'
      · exact ih done hlast.again hxs.2
      · exact absurd (hkey.mp h) h'
      · exact absurd (hkey.mpr h') h
      · rw [ih (done ++ [last]) hxs.1 hxs.2, List.append_assoc]
        rfl

/-- The number of the first record with a key. -/
def firstPos (sorted : List Rec) (k : Key) : ℕ :=
  ((sorted.find? fun x => x.key = k).map Rec.pos).getD 0

/-- What is left of the inputs with key `k` when the record kept has the number `rep k`. -/
def group (keys : List Key) (rep : Key → ℕ) (k : Key) : Rec :=
  ⟨k.name, k.name.rtake 16, k.row, keys.count k, rep k⟩

section Sorted

variable {lines : List Line} {sorted : List Rec}

lemma exists_find (hperm : sorted.Perm (records 0 lines)) {k : Key}
    (hk : k ∈ lines.map Line.key) :
    ∃ x ∈ records 0 lines, sorted.find? (fun x => x.key = k) = some x ∧ x.key = k := by
  rw [← map_key_records 0, ← (hperm.map Rec.key).mem_iff] at hk
  obtain ⟨x, hx, hxk⟩ := List.mem_map.mp hk
  obtain ⟨y, hy⟩ := Option.isSome_iff_exists.mp
    (List.find?_isSome (p := fun x => x.key = k) |>.mpr ⟨x, hx, decide_eq_true hxk⟩)
  exact ⟨y, hperm.mem_iff.mp (List.mem_of_find?_eq_some hy), hy,
    by simpa using List.find?_some hy⟩

lemma represents_firstPos (hperm : sorted.Perm (records 0 lines)) :
    Represents (lines.map Line.key) (firstPos sorted) := by
  intro k hk
  obtain ⟨x, hx, hfind, hxk⟩ := exists_find hperm hk
  rw [firstPos, hfind, ← hxk]
  exact getElem?_pos_of_mem hx

/-- **The merge**: one record for each key, with its count and the number of the first in the
order of the sort. -/
lemma mergeLoop_eq_groups (hvalid : ∀ line ∈ lines, line.Valid) {x : Rec} {xs : List Rec}
    (hperm : (x :: xs).Perm (records 0 lines))
    (hsorted : (x :: xs).Pairwise fun x y => cmp x y ≤ 0) :
    ∃ order : List Key, order.Perm (lines.map Line.key).dedup
      ∧ mergeLoop [] x xs = order.map (group (lines.map Line.key) (firstPos (x :: xs))) := by
  have hsound : ∀ y ∈ x :: xs, y.Sound := fun y hy => sound_of_mem hvalid (hperm.mem_iff.mp hy)
  have hcont : Contiguous Rec.key (x :: xs) := (consistentOn_cmp hsound).contiguous
    (fun y hy z hz => (hsound y hy).cmp_eq_zero (hsound z hz)) hsorted
  have hkeys : ((x :: xs).map Rec.key).Perm (lines.map Line.key) :=
    map_key_records 0 ▸ hperm.map Rec.key
  have hagain : ∀ y : Rec, y.again.key = y.key := fun _ => rfl
  rw [mergeLoop_eq [] (hsound x List.mem_cons_self) fun y hy => hsound y (.tail _ hy),
    List.nil_append]
  refine ⟨(mergeAdjacent Rec.key Rec.again x xs).map Rec.key, ?_, ?_⟩
  · rw [List.perm_ext_iff_of_nodup (hcont.nodup_mergeAdjacent hagain) (List.nodup_dedup _)]
    intro k
    rw [mem_keys_mergeAdjacent hagain, List.mem_dedup, hkeys.mem_iff]
  · rw [List.map_map]
    refine (List.map_id _).symm.trans (List.map_congr_left fun r hr => ?_)
    obtain ⟨y, m, hfind, hcount, hreq⟩ := hcont.mergeAdjacent_spec hagain hr
    obtain ⟨i, line, hline, hyline⟩ :=
      mem_records.mp (hperm.mem_iff.mp (List.mem_of_find?_eq_some hfind))
    rw [hkeys.count_eq] at hcount
    rw [Rec.again_iterate] at hreq
    have hname : r.name = baseName line.path := by rw [hreq, hyline]; rfl
    have hcut : r.cut = (baseName line.path).rtake 16 := by rw [hreq, hyline]; rfl
    have hcount' : r.count = (lines.map Line.key).count r.key := by
      have hone : y.count = 1 := by rw [hyline]; rfl
      rw [hcount, hreq, hone, add_comm]
    have hpos : r.pos = firstPos (x :: xs) r.key := by
      rw [firstPos, hfind, hreq]
      rfl
    calc id r = ⟨r.name, r.cut, r.row, r.count, r.pos⟩ := rfl
      _ = group (lines.map Line.key) (firstPos (x :: xs)) r.key := by
        rw [hcount', hpos, hcut, ← hname]
        rfl

end Sorted

/-! ### The second sort -/

section Groups

variable {keys : List Key} {rep : Key → ℕ}

lemma key_group (k : Key) : (group keys rep k).key = k := rfl

lemma map_key_groups (order : List Key) : (order.map (group keys rep)).map Rec.key = order := by
  rw [List.map_map]
  exact List.map_id order

/-- A permutation of groups is the groups in another order of their keys. -/
lemma eq_groups_of_perm {res : List Rec} {order : List Key}
    (hperm : res.Perm (order.map (group keys rep))) :
    (res.map Rec.key).Perm order ∧ res = (res.map Rec.key).map (group keys rep) := by
  refine ⟨map_key_groups order ▸ hperm.map Rec.key, ?_⟩
  rw [List.map_map]
  refine (List.map_id _).symm.trans (List.map_congr_left fun x hx => ?_)
  obtain ⟨k, -, rfl⟩ := List.mem_map.mp (hperm.mem_iff.mp hx)
  rfl

/-- Counts and numbers of the groups of at most 1000 inputs. -/
lemma small_group (hrep : Represents keys rep) (hlength : keys.length ≤ 1000) {k : Key}
    (hk : k ∈ keys) : (group keys rep k).Small := by
  obtain ⟨hlt, -⟩ := List.getElem?_eq_some_iff.mp (hrep k hk)
  exact ⟨List.count_le_length.trans hlength, hlt.le.trans hlength⟩

/-- **The second sort** puts the groups in the ranking. -/
lemma qsort_groups {qsort : (Rec → Rec → ℤ) → List Rec → List Rec} (hqsort : IsQsort qsort)
    (hrep : Represents keys rep) (hlength : keys.length ≤ 1000) {order : List Key}
    (horder : order.Perm keys.dedup) :
    qsort cmp2 (order.map (group keys rep)) = (rankBy keys rep).map (group keys rep) := by
  have hsmall : ∀ k ∈ order, (group keys rep k).Small := fun k hk =>
    small_group hrep hlength (List.mem_dedup.mp (horder.mem_iff.mp hk))
  have hcons : ConsistentOn cmp2 (order.map (group keys rep)) :=
    consistentOn_cmp2 (List.forall_mem_map.mpr hsmall)
  have hperm := hqsort.perm hcons
  obtain ⟨hkeys, hself⟩ := eq_groups_of_perm hperm
  rw [hself, hrep.eq_rankBy (hkeys.trans horder)]
  rw [List.pairwise_map]
  refine (hqsort.ordered hcons).imp_of_mem fun {x y} hx hy hxy => ?_
  obtain ⟨k, hk, rfl⟩ := List.mem_map.mp (hperm.mem_iff.mp hx)
  obtain ⟨l, hl, rfl⟩ := List.mem_map.mp (hperm.mem_iff.mp hy)
  rw [(hsmall k hk).cmp2_eq (hsmall l hl)] at hxy
  rw [key_group, key_group, Ahead]
  simp only [group] at hxy
  split_ifs at hxy <;> omega

/-- The report is the one asked for when the head of the ranking is. -/
lemma reports_groups_iff :
    Reports keys ⟨(rankBy keys rep).map (group keys rep),
        (((rankBy keys rep).map (group keys rep)).take 8).map Rec.printed⟩
      ↔ (rankBy keys rep).take 8 = (ranking keys).take 8 := by
  constructor
  · intro h
    have hfirst := h.first
    rwa [← List.map_take, map_key_groups] at hfirst
  · intro h
    refine ⟨?_, ?_, ?_⟩
    · rw [List.map_map]
      exact perm_rankBy.map _
    · rw [← List.map_take, map_key_groups, h]
    · rw [← List.map_take, h, List.map_map]
      rfl

end Groups

/-! ### The report -/

section Main

variable {qsort : (Rec → Rec → ℤ) → List Rec → List Rec} {lines : List Line}

/-- **A run**: the groups in the ranking by the numbers of the inputs that the first sort put
first. -/
lemma main_eq (hqsort : IsQsort qsort) (hvalid : ∀ line ∈ lines, line.Valid) (hne : lines ≠ [])
    (hfits : Fits lines) :
    let keys := lines.map Line.key
    let rep := firstPos (qsort cmp (records 0 lines))
    main qsort lines = some ⟨(rankBy keys rep).map (group keys rep),
      (((rankBy keys rep).map (group keys rep)).take 8).map Rec.printed⟩ := by
  intro keys rep
  have hread : readLoop [] lines = some (records 0 lines) := by
    rw [readLoop_eq hvalid [] (Nat.zero_le _), if_pos ⟨by simpa using hfits.1, hfits.2⟩]
    rfl
  have hcons : ConsistentOn cmp (records 0 lines) :=
    consistentOn_cmp fun x hx => sound_of_mem hvalid hx
  have hperm := hqsort.perm hcons
  cases hsort : qsort cmp (records 0 lines) with
  | nil =>
      rw [hsort] at hperm
      have hlength := hperm.length_eq
      simp [records] at hlength
      exact absurd (List.eq_nil_of_length_eq_zero hlength.symm) hne
  | cons x xs =>
      have hsorted := hqsort.ordered hcons
      have hrep : Represents keys rep := represents_firstPos hperm
      rw [hsort] at hperm hsorted
      obtain ⟨order, horder, hmerge⟩ := mergeLoop_eq_groups hvalid hperm hsorted
      have hres : qsort cmp2 (mergeLoop [] x xs) = (rankBy keys rep).map (group keys rep) := by
        rw [hmerge, ← hsort]
        exact qsort_groups hqsort hrep (by rw [List.length_map]; exact hfits.1) horder
      have htake : ∀ res : List Rec,
          res.take (if res.length > 8 then 8 else res.length) = res.take 8 := fun res => by
        split_ifs with h
        · rfl
        · rw [List.take_length, List.take_of_length_le (by omega)]
      simp only [main, hread, Option.bind_eq_bind, Option.bind_some, hsort, hres, htake]
      rfl

/-- Any input of each key may be the one that a sorting function puts first. -/
lemma exists_qsort (hvalid : ∀ line ∈ lines, line.Valid) {rep : Key → ℕ}
    (hrep : Represents (lines.map Line.key) rep) :
    ∃ qsort, IsQsort qsort
      ∧ ∀ k ∈ lines.map Line.key, firstPos (qsort cmp (records 0 lines)) k = rep k := by
  refine ⟨tieSort fun x => x.pos = rep x.key, isQsort_tieSort _, fun k hk => ?_⟩
  have hcons : ConsistentOn cmp (records 0 lines) :=
    consistentOn_cmp fun x hx => sound_of_mem hvalid hx
  have hperm : (tieSort (fun x : Rec => x.pos = rep x.key) cmp (records 0 lines)).Perm _ :=
    perm_tieSort
  obtain ⟨x, hx, hfind, hxk⟩ := exists_find hperm hk
  rw [firstPos, hfind, Option.map_some, Option.getD_some]
  -- the record that was picked
  have hpos := hrep k hk
  rw [List.getElem?_map, Option.map_eq_some_iff] at hpos
  obtain ⟨line, hline, hlk⟩ := hpos
  have hpicked : record line (rep k) ∈ records 0 lines := mem_records.mpr ⟨_, _, hline, rfl⟩
  have hkey : (record line (rep k)).key = k := by rw [key_record, hlk]
  rcases rel_of_find? hcons.pairwise_tieSort hfind (hperm.mem_iff.mpr hpicked)
      (decide_eq_true hkey) with heq | hle
  · rw [← heq]
    rfl
  · have hzero := ((sound_of_mem hvalid hx).cmp_eq_zero (sound_of_mem hvalid hpicked)).mpr
      (hxk.trans hkey.symm)
    rcases hle with hlt | ⟨-, hpick⟩
    · omega
    · have hxpos : x.pos = rep x.key := hpick (congrArg rep hkey.symm)
      rw [hxpos, hxk]

/-- **When the report is the one asked for**: with every sorting function exactly where the inputs
fit in the arrays, and each of the first eight groups of the ranking has all its inputs before the
first one of any group of the same count that appears after it. -/
theorem reports_iff (lines : List Line) (hne : lines ≠ []) (hvalid : ∀ line ∈ lines, line.Valid) :
    (∀ qsort, IsQsort qsort →
        ∃ r, main qsort lines = some r ∧ Reports (lines.map Line.key) r)
      ↔ Fits lines ∧ Settled (lines.map Line.key) 8 := by
  constructor
  · intro h
    have hfits : Fits lines := by
      by_contra hnot
      obtain ⟨r, hr, -⟩ := h _ (isQsort_tieSort fun _ => False)
      rw [main, readLoop_eq hvalid [] (Nat.zero_le _), if_neg (by simpa [Fits] using hnot)] at hr
      exact nomatch hr
    refine ⟨hfits, take_rankBy_iff_settled.mp fun rep hrep => ?_⟩
    obtain ⟨qsort, hqsort, hfirst⟩ := exists_qsort hvalid hrep
    obtain ⟨r, hr, hreports⟩ := h qsort hqsort
    rw [main_eq hqsort hvalid hne hfits, Option.some.injEq] at hr
    subst hr
    rw [← hrep.rankBy_congr hfirst]
    exact reports_groups_iff.mp hreports
  · rintro ⟨hfits, hsettled⟩ qsort hqsort
    have hperm := hqsort.perm (consistentOn_cmp fun x hx => sound_of_mem hvalid hx)
    exact ⟨_, main_eq hqsort hvalid hne hfits,
      reports_groups_iff.mpr (hsettled.take_rankBy (represents_firstPos hperm))⟩

end Main

/-- The path `E:\V1\` and a file of one letter. -/
def lineOf (file : UInt8) (hfile : file ≠ 0) : Line where
  path := [69, 58, 92, 86, 49, 92, file]
  row := 13
  path_nul := by simpa using hfile.symm
  row_int := ⟨by norm_num, by norm_num⟩

/-- The inputs: one of the file `a`, two of the file `b`, one of the file `a`. -/
def mixedLines : List Line :=
  [lineOf 97 (by decide), lineOf 98 (by decide), lineOf 98 (by decide), lineOf 97 (by decide)]

/-- The inputs: two of the file `a`, two of the file `b`. -/
def pairedLines : List Line :=
  [lineOf 97 (by decide), lineOf 97 (by decide), lineOf 98 (by decide), lineOf 98 (by decide)]

/-- Two groups of two are reported, with a sorting function that picks nothing. -/
theorem reports_pairs : ∃ r, main (tieSort fun _ => False) pairedLines = some r
    ∧ Reports (pairedLines.map Line.key) r :=
  (reports_iff pairedLines (List.cons_ne_nil _ _)
    (by simp [pairedLines, Line.Valid, lineOf, backslash])).mpr ⟨⟨by decide, by decide⟩, by decide⟩
    _ (isQsort_tieSort _)

/-- **The groups out of order**: where the first sort puts the last of the inputs of `a` first, `b`
is printed before `a`, which appears before it and as often. -/
theorem reports_out_of_order :
    ¬ ∀ qsort, IsQsort qsort →
      ∃ r, main qsort mixedLines = some r ∧ Reports (mixedLines.map Line.key) r := by
  intro h
  obtain ⟨r, hr, hreports⟩ := h _ (isQsort_tieSort fun x => x.pos = 3)
  have hrun : (main (tieSort fun x => x.pos = 3) mixedLines).map (fun r => r.res.map Rec.key)
      = some [⟨[98], 13⟩, ⟨[97], 13⟩] := by decide
  rw [hr, Option.map_some, Option.some.injEq] at hrun
  have hfirst := hreports.first
  rw [List.map_take, hrun] at hfirst
  exact absurd hfirst (by decide)

end ErrorRecord

end Wgs
