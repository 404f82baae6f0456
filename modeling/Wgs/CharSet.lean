import Wgs.Foundation.Strings

/-!
`C/huawei/5.c` and `C/huawei/5-2.c`: the letters of a line, each where it occurs first.

`5.c` puts each letter of the line that is not yet in the string `output` at its end, and neither
clears `output` for the next line nor puts a zero behind it.  So what is in the array before a line
must not show: each cell that a letter is going to be put in holds a zero, or that letter already,
and the cell behind them a zero (`Clean`).  `input` has room for 99 letters.

`5-2.c` marks the letters that have come in a table, which it clears for each line, and is always
right (`charSets_iff`).
-/

namespace Wgs.CharSet

open Foundation Strings

/-! ### The programs -/

namespace Growing

/-- `for (j = 0; j < m; j++) if (output[j] == input[i]) { flag = 0; break; }`, from some `j` on:
whether `flag` is still 1. -/
def searchLoop (input output : Cells UInt8) (i m : ℤ) : ℕ → ℤ → Option Bool :=
  loop fun _ j => do
    if j < m then
      if (← output.load j) = (← input.load i) then return .stop false else return .next (j + 1)
    else return .stop true

/-- The body of the loop over the letters. -/
def grow (input : Cells UInt8) (fuel : ℕ) (output : Cells UInt8) (i : ℤ) :
    Option (Cells UInt8) := do
  let m ← Strings.strlen output
  if ← searchLoop input output i m fuel 0 then output.store m (← input.load i) else return output

/-- `for (i = 1; i < l; i++)`, from some `i` on. -/
def growLoop (input : Cells UInt8) (l : ℤ) : ℕ → Cells UInt8 × ℤ → Option (Cells UInt8 × ℤ) :=
  whileLoop
    (fun (_, i) => return i < l)
    (fun fuel (output, i) => return (← grow input fuel output i, i + 1))

/-- What `5.c` does when it has read a line: the line printed, and `output`. -/
def charSet (fuel : ℕ) (input output : Cells UInt8) : Option (List UInt8 × Cells UInt8) := do
  let l ← Strings.strlen input
  let output ← output.store 0 (← input.load 0)
  let (output, _) ← growLoop input l fuel (output, 1)
  return (← string output, output)

/-- `main` of `5.c`: the lines printed. -/
def main : ℕ → Cells UInt8 → Cells UInt8 → List UInt8 → Option (List (List UInt8))
  | 0, _, _, _ => none
  | fuel + 1, input, output, stdin => do
      match ← gets input stdin with
      | none => return []
      | some (input, stdin) =>
          let (line, output) ← charSet fuel input output
          let rest ← main fuel input output stdin
          return line :: rest

end Growing

namespace Marking

/-- `if (c[place] == 0) { printf("%c", s[i]); c[place] = 1; }`, behind what is printed before. -/
def visit (c : Cells ℤ) (out : List UInt8) (letter : UInt8) (place : ℤ) :
    Option (List UInt8 × Cells ℤ) := do
  if (← c.load place) = 0 then return (out ++ [letter], ← c.store place 1) else return (out, c)

/-- `for (i = 0; i < len; i++)`, from some `i` on. -/
def markLoop (s : Cells UInt8) (len : ℤ) :
    ℕ → List UInt8 × Cells ℤ × ℤ → Option (List UInt8 × Cells ℤ × ℤ) :=
  whileLoop
    (fun (_, _, i) => return i < len)
    (fun _ (out, c, i) => do
      let letter ← s.load i
      if 97 ≤ letter ∧ letter ≤ 122 then
        let (out, c) ← visit c out letter (letter.toNat - 97)
        return (out, c, i + 1)
      else if 65 ≤ letter ∧ letter ≤ 90 then
        let (out, c) ← visit c out letter (letter.toNat - 65 + 26)
        return (out, c, i + 1)
      else return (out, c, i + 1))

/-- `for (i = 0; i < 52; i++) c[i] = 0;`, from some `i` on. -/
def clearLoop : ℕ → Cells ℤ × ℤ → Option (Cells ℤ × ℤ) :=
  whileLoop (fun (_, i) => return i < 52) (fun _ (c, i) => return (← c.store i 0, i + 1))

/-- What `5-2.c` does when it has read a line: the line printed, and `c`. -/
def charSet (fuel : ℕ) (s : Cells UInt8) (c : Cells ℤ) : Option (List UInt8 × Cells ℤ) := do
  let len ← Strings.strlen s
  let (out, c, _) ← markLoop s len fuel ([], c, 0)
  let (c, _) ← clearLoop fuel (c, 0)
  return (out, c)

/-- The `while` loop of `main` of `5-2.c`: the lines printed. -/
def mainLoop : ℕ → Cells UInt8 → Cells ℤ → List UInt8 → Option (List (List UInt8))
  | 0, _, _, _ => none
  | fuel + 1, s, c, stdin => do
      match ← scanString s stdin with
      | none => return []
      | some (s, stdin) =>
          let (line, c) ← charSet fuel s c
          let rest ← mainLoop fuel s c stdin
          return line :: rest

/-- `main` of `5-2.c`, with `int c[52] = { 0 };`. -/
def main (fuel : ℕ) (s : Cells UInt8) (stdin : List UInt8) : Option (List (List UInt8)) :=
  mainLoop fuel s (List.replicate 52 0) stdin

end Marking

/-! ### Lines and letters -/

/-- A letter, small or capital. -/
def IsLetter (c : UInt8) : Prop := 97 ≤ c ∧ c ≤ 122 ∨ 65 ≤ c ∧ c ≤ 90

instance : DecidablePred IsLetter :=
  fun c => inferInstanceAs (Decidable (97 ≤ c ∧ c ≤ 122 ∨ 65 ≤ c ∧ c ≤ 90))

/-- A line as the programs may get it. -/
structure IsLine (line : List UInt8) : Prop where
  ne_nil : line ≠ []
  length_le : line.length ≤ 100
  letters : ∀ c ∈ line, IsLetter c

/-- The lines as one text. -/
def text (lines : List (List UInt8)) : List UInt8 := lines.flatMap (· ++ [10])

lemma text_cons (line : List UInt8) (lines : List (List UInt8)) :
    text (line :: lines) = line ++ 10 :: text lines := by
  rw [text, List.flatMap_cons, List.append_assoc]
  rfl

/-- What is in `output` does not show when these letters are put in it. -/
def Clean (output : Cells UInt8) (letters : List UInt8) : Prop :=
  (∀ i < letters.length, 1 ≤ i → output[i]? = some 0 ∨ output[i]? = letters[i]?)
    ∧ output[letters.length]? = some 0

/-- What a line that is printed right leaves in `output`. -/
def left (output : Cells UInt8) (line : List UInt8) : Cells UInt8 :=
  Cells.fill line.eraseDups output line.eraseDups.length

/-- Before each line, where all lines in front of it have been printed right, `output` is clean; and
there is room for the line. -/
def AllClean (output : Cells UInt8) (lines : List (List UInt8)) : Prop :=
  ∀ k line, lines[k]? = some line →
    line.length ≤ 99 ∧ Clean ((lines.take k).foldl left output) line.eraseDups

section Letters

variable {c : UInt8} {line line' : List UInt8}

lemma IsLetter.ne_zero (h : IsLetter c) : c ≠ 0 := by
  rintro rfl
  revert h
  rw [IsLetter]
  decide

lemma IsLine.zero_notMem (h : IsLine line) : 0 ∉ line := fun hmem => (h.letters 0 hmem).ne_zero rfl

lemma IsLine.isSpace_eq_false (h : IsLine line) : ∀ c ∈ line, isSpace c = false := by
  intro c hc
  have hletter := h.letters c hc
  simp only [IsLetter, UInt8.le_iff_toNat_le, UInt8.reduceToNat] at hletter
  simp only [isSpace, ← UInt8.toNat_inj, UInt8.le_iff_toNat_le, UInt8.reduceToNat,
    decide_eq_false_iff_not]
  omega

lemma IsLine.newline_notMem (h : IsLine line) : 10 ∉ line :=
  fun hmem => absurd (h.isSpace_eq_false 10 hmem) (by decide)

/-- One more letter of a line. -/
lemma eraseDups_concat :
    (line ++ [c]).eraseDups = if c ∈ line then line.eraseDups else line.eraseDups ++ [c] := by
  rw [List.eraseDups_append, List.removeAll, List.filter_singleton]
  by_cases h : c ∈ line
  · simp [h]
  · simp [h, List.eraseDups_cons]

/-- The letters of a part in front come first. -/
lemma eraseDups_isPrefix : line.eraseDups <+: (line ++ line').eraseDups := by
  rw [List.eraseDups_append]
  exact List.prefix_append _ _

lemma length_eraseDups_pos (h : line ≠ []) : 1 ≤ line.eraseDups.length := by
  obtain ⟨x, hx⟩ := List.exists_mem_of_ne_nil line h
  exact List.length_pos_of_mem (List.mem_eraseDups.mpr hx)

end Letters

/-! ### The string that grows -/

namespace Growing

variable {input output output' : Cells UInt8} {line letters t₂ rest : List UInt8} {c : UInt8}
  {i l : ℤ}

/-- The letter is sought in the rest of the string. -/
lemma searchLoop_ends (t₁ : List UInt8) (hinput : input.load i = some c)
    (hout : output = t₁ ++ t₂ ++ rest) :
    Ends (fun fuel => searchLoop input output i (t₁ ++ t₂).length fuel t₁.length)
      (· = decide (c ∉ t₂)) := by
  induction t₂ generalizing t₁ with
  | nil => exact .loop_step (.of_eq (r := .stop true) (fun _ => by simp)
      (by simp [Control.Meets]))
  | cons x t₂ ih =>
      have hload : output.load t₁.length = some x := by
        rw [hout, Cells.load, if_neg (by omega), Int.toNat_natCast]
        simp
      by_cases hx : x = c
      · subst hx
        refine .loop_step (.of_eq (r := .stop false) (fun _ => ?_) (by simp [Control.Meets]))
        simp [hload, hinput]
      · refine .loop_step (.of_eq (r := .next ((t₁.length : ℤ) + 1)) (fun _ => ?_) ?_)
        · simp [hload, hinput, hx]
        · have hrest := ih (t₁ ++ [x]) (by rw [hout]; simp)
          have hlen : t₁ ++ [x] ++ t₂ = t₁ ++ x :: t₂ := List.append_cons _ _ _ |>.symm
          have hmem : c ∉ x :: t₂ ↔ c ∉ t₂ := by simp [Ne.symm hx]
          have hone : ((t₁ ++ [x]).length : ℤ) = t₁.length + 1 := by simp
          rw [hlen, hone] at hrest
          simp only [hmem]
          exact hrest

/-- The string in an array goes on behind some letters with those that come next, as far as they are
there. -/
lemma exists_string {s ahead : List UInt8}
    (h : ∀ i < ahead.length, s[i]? = some 0 ∨ s[i]? = ahead[i]?)
    (hend : s[ahead.length]? = some 0) :
    ∃ t rest, s = t ++ 0 :: rest ∧ t <+: ahead := by
  induction ahead generalizing s with
  | nil =>
      cases s with
      | nil => cases hend
      | cons x s =>
          obtain rfl := Option.some_inj.mp hend
          exact ⟨[], s, rfl, List.nil_prefix⟩
  | cons a ahead ih =>
      cases s with
      | nil => cases hend
      | cons x s =>
          by_cases hx : x = 0
          · exact ⟨[], s, by rw [hx, List.nil_append], List.nil_prefix⟩
          · have hxa : x = a := by
              have hfirst := h 0 (Nat.succ_pos _)
              simpa [hx] using hfirst
            obtain ⟨t, rest, rfl, ht⟩ := ih (fun i hi => h (i + 1) (Nat.succ_lt_succ hi)) hend
            exact ⟨x :: t, rest, rfl, List.cons_prefix_cons.mpr ⟨hxa, ht⟩⟩

/-- The string while the letters are put in: it goes on with some of those that come next. -/
lemma string_fill (hclean : Clean output letters) (hletters : 0 ∉ letters) {j : ℕ} (hj : 1 ≤ j)
    (hle : j ≤ letters.length) : ∃ t rest, output.drop j = t ++ 0 :: rest ∧ t <+: letters.drop j
      ∧ string (Cells.fill letters output j) = some (letters.take j ++ t) := by
  obtain ⟨hcells, hend⟩ := hclean
  have hahead : ∀ i < (letters.drop j).length,
      (output.drop j)[i]? = some 0 ∨ (output.drop j)[i]? = (letters.drop j)[i]? := by
    intro i hi
    rw [List.length_drop] at hi
    rw [List.getElem?_drop, List.getElem?_drop]
    exact hcells (j + i) (by omega) (by omega)
  have hlast : (output.drop j)[(letters.drop j).length]? = some 0 := by
    rw [List.getElem?_drop, List.length_drop, Nat.add_sub_of_le hle, hend]
  obtain ⟨t, rest, hdrop, hpre⟩ := exists_string hahead hlast
  refine ⟨t, rest, hdrop, hpre, ?_⟩
  rw [string_eq_some_iff, Cells.fill, hdrop]
  refine ⟨fun hzero => ?_, rest, by rw [List.append_assoc]⟩
  rcases List.mem_append.mp hzero with hzero | hzero
  · exact hletters (List.mem_of_mem_take hzero)
  · exact hletters (List.mem_of_mem_drop (hpre.subset hzero))

/-- One letter: the next one of those that are put in, or one that is there. -/
lemma grow_ends {p q : List UInt8} (hzero : 0 ∉ p ++ c :: q) (hp : p ≠ [])
    (hinput : input.load i = some c) (hclean : Clean output (p ++ c :: q).eraseDups)
    (hlen : (p ++ c :: q).eraseDups.length ≤ output.length) :
    Ends (fun fuel => grow input fuel
        (Cells.fill (p ++ c :: q).eraseDups output p.eraseDups.length) i)
      (· = Cells.fill (p ++ c :: q).eraseDups output (p ++ [c]).eraseDups.length) := by
  have hpre : (p ++ [c]).eraseDups <+: (p ++ c :: q).eraseDups := by
    rw [List.append_cons p c q]
    exact eraseDups_isPrefix
  have hpos : 1 ≤ p.eraseDups.length := length_eraseDups_pos hp
  have hzero' : 0 ∉ (p ++ c :: q).eraseDups := fun h => hzero (List.mem_eraseDups.mp h)
  set letters := (p ++ c :: q).eraseDups
  have hle : p.eraseDups.length ≤ letters.length := eraseDups_isPrefix.length_le
  have htake : letters.take p.eraseDups.length = p.eraseDups :=
    (List.prefix_iff_eq_take.mp eraseDups_isPrefix).symm
  obtain ⟨t, rest, hdrop, ht, hstring⟩ := string_fill hclean hzero' hpos hle
  rw [htake] at hstring
  obtain ⟨rest', hfill⟩ := (string_eq_some_iff.mp hstring).2
  simp only [grow, strlen_eq hstring, Option.bind_eq_bind, Option.bind_some]
  refine (searchLoop_ends [] hinput hfill).bind fun flag hflag => ?_
  obtain rfl := hflag
  rw [eraseDups_concat] at hpre ⊢
  by_cases hc : c ∈ p
  · rw [if_pos hc]
    have hmem : c ∈ p.eraseDups ++ t := List.mem_append_left _ (List.mem_eraseDups.mpr hc)
    exact .of_eq (fun _ => by simp [hmem]) rfl
  · rw [if_neg hc] at hpre ⊢
    have hnew : c ∉ p.eraseDups := fun h => hc (List.mem_eraseDups.mp h)
    obtain ⟨more, hmore⟩ := hpre
    rw [List.append_assoc, List.singleton_append] at hmore
    rw [← hmore, List.drop_left] at ht
    have hlt : p.eraseDups.length < letters.length := by
      rw [← hmore]
      simp
    have hget : letters[p.eraseDups.length] = c := by
      simp [← hmore]
    have hlength : (p.eraseDups ++ [c]).length = p.eraseDups.length + 1 := by simp
    rw [hlength]
    cases t with
    | nil =>
        have hstore := Cells.store_fill hlt hlen
        rw [hget] at hstore
        refine .of_eq (fun _ => ?_) rfl
        simp [hnew, hinput, hstore]
    | cons x t =>
        -- the letter is in its place already
        obtain rfl : x = c := (List.cons_prefix_cons.mp ht).1
        have hthere : output[p.eraseDups.length]? = some letters[p.eraseDups.length] := by
          rw [hget, ← List.head?_drop, hdrop]
          rfl
        rw [Cells.fill_succ_eq_fill hlt hthere]
        exact .of_eq (fun _ => by simp) rfl

/-- The letters of the rest of the line are put in. -/
lemma growLoop_ends (p q : List UInt8) (hzero : 0 ∉ p ++ q) (hp : p ≠ [])
    (hinput : input = p ++ q ++ 0 :: rest) (hclean : Clean output (p ++ q).eraseDups)
    (hlen : (p ++ q).eraseDups.length ≤ output.length) :
    Ends (fun fuel => growLoop input (p ++ q).length fuel
        (Cells.fill (p ++ q).eraseDups output p.eraseDups.length, p.length)) fun r =>
      r.1 = Cells.fill (p ++ q).eraseDups output (p ++ q).eraseDups.length := by
  induction q generalizing p with
  | nil => exact .whileLoop_false (by simp) (by rw [List.append_nil])
  | cons c q ih =>
      have happend : p ++ c :: q = p ++ [c] ++ q := List.append_cons p c q
      have hload : input.load p.length = some c := by
        rw [hinput, Cells.load, if_neg (by omega), Int.toNat_natCast]
        simp
      refine .whileLoop_true (by simp)
        ((grow_ends hzero hp hload hclean hlen).bind fun output' houtput => ?_)
      obtain rfl := houtput
      refine .of_eq (fun _ => rfl) ?_
      have hone : ((p ++ [c]).length : ℤ) = p.length + 1 := by simp
      rw [happend] at hzero hinput hclean hlen ⊢
      rw [← hone]
      exact ih _ hzero (by simp) hinput hclean hlen

lemma Clean.length_lt (h : Clean output letters) : letters.length < output.length :=
  (List.getElem?_eq_some_iff.mp h.2).1

/-- A clean line. -/
lemma charSet_ends (hne : line ≠ []) (hzero : 0 ∉ line) (hclean : Clean output line.eraseDups) :
    Ends (fun fuel => charSet fuel (line ++ 0 :: rest) output)
      (· = (line.eraseDups, left output line)) := by
  obtain ⟨c, q, rfl⟩ := List.exists_cons_of_ne_nil hne
  have hlt := Clean.length_lt hclean
  have hzero' : 0 ∉ (c :: q).eraseDups := fun h => hzero (List.mem_eraseDups.mp h)
  have hstring : string (c :: q ++ 0 :: rest) = some (c :: q) := string_append hzero
  have hone : [c].eraseDups.length = 1 := by rw [List.eraseDups_cons]; simp
  have hpos : 0 < (c :: q).eraseDups.length := length_eraseDups_pos hne
  have hget : (c :: q).eraseDups[0] = c := by
    simp [List.eraseDups_cons]
  have hstore : output.store 0 c = some (Cells.fill (c :: q).eraseDups output 1) := by
    have hfill := Cells.store_fill hpos hlt.le
    rw [hget] at hfill
    exact hfill
  have hload : Cells.load (c :: q ++ 0 :: rest) 0 = some c := rfl
  simp only [charSet, strlen_eq hstring, hload, hstore, Option.bind_eq_bind, Option.bind_some]
  have hinput : c :: q ++ 0 :: rest = [c] ++ q ++ 0 :: rest := rfl
  have hgrow := growLoop_ends [c] q hzero (by simp) hinput hclean hlt.le
  rw [hone] at hgrow
  refine hgrow.bind fun ⟨output', i⟩ houtput => ?_
  dsimp only at houtput
  obtain ⟨t, rest', -, ht, hstring'⟩ := string_fill hclean hzero' hpos le_rfl
  rw [List.drop_length, List.prefix_nil] at ht
  rw [ht, List.take_length, List.append_nil] at hstring'
  refine .of_eq (fun _ => ?_) rfl
  simp [houtput, hstring', left]

/-- What may have changed in `output` behind its first letter: zeros have been replaced, but none
put in. -/
structure Grown (output output' : Cells UInt8) : Prop where
  kept : ∀ i, 1 ≤ i → output[i]? = some 0 ∨ output'[i]? = output[i]?
  zero : ∀ i, 1 ≤ i → output'[i]? = some 0 → output[i]? = some 0

/-- A letter is put in the place of the zero behind the string. -/
lemma Grown.store {output₀ : Cells UInt8} {m : ℤ} (h : Grown output₀ output)
    (hm : Strings.strlen output = some m) (hstore : output.store m c = some output') :
    Grown output₀ output' := by
  obtain ⟨t, ht, hm⟩ := Option.bind_eq_some_iff.mp hm
  obtain rfl := Option.some_inj.mp hm
  rw [Cells.store] at hstore
  split_ifs at hstore with hbound
  obtain rfl := Option.some_inj.mp hstore
  obtain ⟨-, rest, rfl⟩ := string_eq_some_iff.mp ht
  have hend : (t ++ 0 :: rest)[t.length]? = some 0 := by simp
  rw [Int.toNat_natCast]
  constructor
  · intro i hi
    rcases eq_or_ne i t.length with rfl | hne
    · exact Or.inl (h.zero _ hi hend)
    · rw [List.getElem?_set_ne hne.symm]
      exact h.kept i hi
  · intro i hi hzero
    rcases eq_or_ne i t.length with rfl | hne
    · exact h.zero _ hi hend
    · rw [List.getElem?_set_ne hne.symm] at hzero
      exact h.zero i hi hzero

lemma Grown.growLoop {output₀ : Cells UInt8} {r : Cells UInt8 × ℤ} {fuel : ℕ}
    (h : Grown output₀ output) (hr : growLoop input l fuel (output, i) = some r) :
    Grown output₀ r.1 := by
  refine whileLoop_invariant (I := fun r : Cells UInt8 × ℤ => Grown output₀ r.1)
    (fun fuel r r' hr _ hbody => ?_) h hr
  obtain ⟨output', hgrow, hbody⟩ := Option.bind_eq_some_iff.mp hbody
  obtain rfl := Option.some_inj.mp hbody
  obtain ⟨m, hm, hgrow⟩ := Option.bind_eq_some_iff.mp hgrow
  obtain ⟨flag, -, hgrow⟩ := Option.bind_eq_some_iff.mp hgrow
  cases flag with
  | true =>
      obtain ⟨c, -, hstore⟩ := Option.bind_eq_some_iff.mp hgrow
      exact hr.store hm hstore
  | false =>
      obtain rfl := Option.some_inj.mp hgrow
      exact hr

/-- **A line that is printed right is clean.** -/
lemma clean_of_charSet {fuel : ℕ} (hne : line ≠ [])
    (hr : charSet fuel input output = some (line.eraseDups, output')) :
    Clean output line.eraseDups := by
  obtain ⟨l, -, hr⟩ := Option.bind_eq_some_iff.mp hr
  obtain ⟨c, -, hr⟩ := Option.bind_eq_some_iff.mp hr
  obtain ⟨output₁, hstore, hr⟩ := Option.bind_eq_some_iff.mp hr
  obtain ⟨⟨output₂, i⟩, hloop, hr⟩ := Option.bind_eq_some_iff.mp hr
  obtain ⟨t, hstring, hr⟩ := Option.bind_eq_some_iff.mp hr
  obtain ⟨rfl, rfl⟩ := Prod.mk.inj (Option.some_inj.mp hr)
  have hgrown : Grown output output₁ := by
    rw [Cells.store] at hstore
    split_ifs at hstore with hbound
    obtain rfl := Option.some_inj.mp hstore
    have hsame : ∀ i, 1 ≤ i → (output.set (0 : ℤ).toNat c)[i]? = output[i]? :=
      fun i hi => List.getElem?_set_ne (by simp; omega)
    exact ⟨fun i hi => Or.inr (hsame i hi), fun i hi hzero => by rwa [hsame i hi] at hzero⟩
  have hgrown' := hgrown.growLoop hloop
  obtain ⟨-, rest, hout⟩ := string_eq_some_iff.mp hstring
  dsimp only at hgrown'
  have hpos : 1 ≤ line.eraseDups.length := length_eraseDups_pos hne
  refine ⟨fun i hi hi₁ => ?_, hgrown'.zero _ hpos (by rw [hout]; simp)⟩
  refine (hgrown'.kept i hi₁).imp_right fun hkept => ?_
  rw [← hkept, hout, List.getElem?_append_left hi]

lemma allClean_cons {lines : List (List UInt8)} : AllClean output (line :: lines)
    ↔ (line.length ≤ 99 ∧ Clean output line.eraseDups) ∧ AllClean (left output line) lines := by
  constructor
  · intro h
    exact ⟨h 0 line rfl, fun k line' hk => h (k + 1) line' hk⟩
  · rintro ⟨hfirst, hrest⟩ k line' hk
    cases k with
    | zero =>
        obtain rfl := Option.some_inj.mp hk
        exact hfirst
    | succ k => exact hrest k line' hk

section Room

variable {stdin : List UInt8} {outs : List (List UInt8)}

lemma main_line (output : Cells UInt8) (stdin : List UInt8) (hline : 10 ∉ line)
    (hroom : line.length < input.length) (fuel : ℕ) :
    main (fuel + 1) input output (line ++ 10 :: stdin) = do
      let (out, output) ← charSet fuel (line ++ 0 :: input.drop (line.length + 1)) output
      let rest ← main fuel (line ++ 0 :: input.drop (line.length + 1)) output stdin
      return out :: rest := by
  have hgets : gets input (line ++ 10 :: stdin) = (put input line).map fun s => some (s, stdin) :=
    gets_line hline
  rw [put_eq hroom] at hgets
  rw [main, hgets]
  rfl

/-- A line that there is no room for is a fault. -/
lemma main_long (hline : 10 ∉ line) (hroom : ¬ line.length < input.length) (fuel : ℕ) :
    main fuel input output (line ++ 10 :: stdin) = none := by
  have hgets : gets input (line ++ 10 :: stdin) = (put input line).map fun s => some (s, stdin) :=
    gets_line hline
  rw [put_eq_none hroom] at hgets
  cases fuel with
  | zero => rfl
  | succ fuel =>
      rw [main, hgets]
      rfl

/-- **One line** is printed right exactly when it is clean, and the others are behind it. -/
lemma main_line_iff (hline : IsLine line) (hroom : line.length < input.length) :
    Returns (fun fuel => main fuel input output (line ++ 10 :: stdin)) (line.eraseDups :: outs)
      ↔ Clean output line.eraseDups ∧ Returns (fun fuel =>
        main fuel (line ++ 0 :: input.drop (line.length + 1)) (left output line) stdin) outs := by
  have hmain := main_line output stdin hline.newline_notMem hroom
  set input' := line ++ 0 :: input.drop (line.length + 1)
  have hends : Clean output line.eraseDups → Ends (fun fuel => charSet fuel input' output)
      (· = (line.eraseDups, left output line)) :=
    fun hclean => charSet_ends hline.ne_nil hline.zero_notMem hclean
  constructor
  · rintro ⟨n, hn⟩
    beta_reduce at hn
    have hfirst := hn (n + 1) (Nat.le_succ n)
    rw [hmain] at hfirst
    obtain ⟨⟨out, output'⟩, hout, hfirst⟩ := Option.bind_eq_some_iff.mp hfirst
    obtain ⟨outs', -, hfirst⟩ := Option.bind_eq_some_iff.mp hfirst
    obtain ⟨rfl, -⟩ := List.cons.inj (Option.some_inj.mp hfirst)
    have hclean := clean_of_charSet hline.ne_nil hout
    refine ⟨hclean, ?_⟩
    obtain ⟨r, ⟨n', hn'⟩, rfl⟩ := hends hclean
    refine ⟨max n n', fun fuel hfuel => ?_⟩
    have hrest := hn (fuel + 1) (by omega)
    beta_reduce at hn'
    rw [hmain, hn' fuel (by omega), Option.bind_eq_bind, Option.bind_some] at hrest
    obtain ⟨outs', houts, hrest⟩ := Option.bind_eq_some_iff.mp hrest
    obtain ⟨-, rfl⟩ := List.cons.inj (Option.some_inj.mp hrest)
    exact houts
  · rintro ⟨hclean, hrest⟩
    have hall : Ends (fun fuel => main fuel input output (line ++ 10 :: stdin))
        (· = line.eraseDups :: outs) := by
      refine .of_succ ?_
      simp only [hmain]
      refine (hends hclean).bind fun r hr => ?_
      obtain rfl := hr
      exact .bind ⟨_, hrest, rfl⟩ fun outs' houts => .of_eq (fun _ => by rw [← houts]; rfl) rfl
    obtain ⟨outs', houts, rfl⟩ := hall
    exact houts

end Room

/-- **`5.c`**: all lines are printed right exactly when all of them are clean. -/
lemma main_returns_iff {lines : List (List UInt8)} (hlines : ∀ line ∈ lines, IsLine line)
    (hinput : input.length = 100) :
    Returns (fun fuel => main fuel input output (text lines)) (lines.map List.eraseDups)
      ↔ AllClean output lines := by
  induction lines generalizing input output with
  | nil => exact iff_of_true (.of_add 1 fun fuel => rfl) fun k line hk => by cases hk
  | cons line lines ih =>
      obtain ⟨hline, hlines⟩ := List.forall_mem_cons.mp hlines
      rw [text_cons, List.map_cons, allClean_cons]
      by_cases hroom : line.length < input.length
      · have hlen := length_put hroom
        rw [main_line_iff hline hroom, ih hlines (hlen.trans hinput),
          and_iff_right (by omega : line.length ≤ 99)]
      · refine iff_of_false (not_returns (main_long hline.newline_notMem hroom)) fun h => ?_
        have hle := h.1.1
        omega

end Growing

/-! ### The table of marks -/

namespace Marking

/-- The place of a letter in the table. -/
def place (letter : UInt8) : ℤ :=
  if 97 ≤ letter ∧ letter ≤ 122 then letter.toNat - 97 else letter.toNat - 65 + 26

/-- The table, with the letters marked that have come. -/
structure Marks (c : Cells ℤ) (line : List UInt8) : Prop where
  length_eq : c.length = 52
  cell_eq_zero : ∀ letter, IsLetter letter → (c.cell (place letter) = 0 ↔ letter ∉ line)

variable {c c' : Cells ℤ} {s : Cells UInt8} {line p rest : List UInt8} {letter letter' : UInt8}

lemma place_bounds (h : IsLetter letter) : 0 ≤ place letter ∧ place letter < 52 := by
  simp only [IsLetter, UInt8.le_iff_toNat_le, UInt8.reduceToNat] at h
  simp only [place, UInt8.le_iff_toNat_le, UInt8.reduceToNat]
  split_ifs <;> omega

lemma place_inj (h : IsLetter letter) (h' : IsLetter letter') (heq : place letter = place letter') :
    letter = letter' := by
  rw [← UInt8.toNat_inj]
  simp only [IsLetter, UInt8.le_iff_toNat_le, UInt8.reduceToNat] at h h'
  simp only [place, UInt8.le_iff_toNat_le, UInt8.reduceToNat] at heq
  split_ifs at heq <;> omega

/-- One letter. -/
lemma visit_eq (hmarks : Marks c p) (hletter : IsLetter letter) :
    ∃ c', visit c p.eraseDups letter (place letter) = some ((p ++ [letter]).eraseDups, c')
      ∧ Marks c' (p ++ [letter]) := by
  obtain ⟨hnonneg, hlt⟩ := place_bounds hletter
  have hlen := hmarks.length_eq
  have hload := Cells.load_eq (s := c) hnonneg (by omega)
  rw [eraseDups_concat]
  by_cases hmem : letter ∈ p
  · have hcell : c.cell (place letter) ≠ 0 :=
      fun h => (hmarks.cell_eq_zero letter hletter).mp h hmem
    refine ⟨c, by simp [visit, hload, hcell, hmem], hlen, fun letter' hletter' => ?_⟩
    rw [hmarks.cell_eq_zero letter' hletter', List.mem_append, List.mem_singleton, not_or]
    refine ⟨fun h => ⟨h, ?_⟩, fun h => h.1⟩
    rintro rfl
    exact h hmem
  · have hcell : c.cell (place letter) = 0 := (hmarks.cell_eq_zero letter hletter).mpr hmem
    obtain ⟨c', hstore, hlen', hcell'⟩ := Cells.store_spec (v := 1) hnonneg
      (show place letter < c.length by omega)
    refine ⟨c', by simp [visit, hload, hcell, hmem, hstore], hlen'.trans hlen,
      fun letter' hletter' => ?_⟩
    rw [hcell', List.mem_append, List.mem_singleton, not_or]
    by_cases hsame : letter' = letter
    · subst hsame
      simp
    · rw [Function.update_of_ne fun h => hsame (place_inj hletter' hletter h),
        hmarks.cell_eq_zero letter' hletter', and_iff_left hsame]

/-- The letters of the rest of the line. -/
lemma markLoop_ends (p q : List UInt8) (hletters : ∀ letter ∈ q, IsLetter letter)
    (hs : s = p ++ q ++ rest) (hmarks : Marks c p) :
    Ends (fun fuel => markLoop s (p ++ q).length fuel (p.eraseDups, c, p.length)) fun r =>
      r.1 = (p ++ q).eraseDups ∧ r.2.1.length = 52 := by
  induction q generalizing p c with
  | nil =>
      refine .whileLoop_false (by simp) ⟨?_, hmarks.length_eq⟩
      rw [List.append_nil]
  | cons letter q ih =>
      obtain ⟨hletter, hletters⟩ := List.forall_mem_cons.mp hletters
      have hload : s.load p.length = some letter := by
        rw [hs, Cells.load, if_neg (by omega), Int.toNat_natCast]
        simp
      obtain ⟨c', hvisit, hmarks'⟩ := visit_eq hmarks hletter
      refine .whileLoop_true (by simp) (.of_eq (r := ((p ++ [letter]).eraseDups, c',
        (p.length : ℤ) + 1)) (fun _ => ?_) ?_)
      · rw [place] at hvisit
        split_ifs at hvisit with hsmall
        · simp [hload, hsmall, hvisit]
        · have hcapital := hletter.resolve_left hsmall
          simp [hload, hsmall, hcapital, hvisit]
      · have hone : ((p ++ [letter]).length : ℤ) = p.length + 1 := by simp
        rw [List.append_cons, ← hone]
        exact ih _ hletters (by rw [hs, List.append_cons]) hmarks'

lemma clearLoop_ends (hc : c.length = 52) :
    Ends (fun fuel => clearLoop fuel (c, 0)) (· = (List.replicate 52 0, 52)) := by
  have hlen : (List.replicate 52 (0 : ℤ)).length ≤ c.length := by
    rw [List.length_replicate, hc]
  refine (Ends.whileLoop_numbered (n := 52)
    (fun k => (Cells.fill (List.replicate 52 0) c k, (k : ℤ))) (fun k hk => ?_) (fun k hk => ?_)
    rfl (Nat.zero_le _)).mono fun r hr => ?_
  · simpa using hk
  · have hroom : k < (List.replicate 52 (0 : ℤ)).length := by rwa [List.length_replicate]
    have hstore := Cells.store_fill hroom hlen
    rw [List.getElem_replicate] at hstore
    refine .of_eq (fun _ => ?_) rfl
    dsimp only
    rw [hstore]
    rfl
  · rw [hr, Cells.fill, List.drop_eq_nil_of_le hc.le, List.append_nil]
    rfl

/-- **A line of `5-2.c`** is printed right, and leaves a table without marks. -/
lemma charSet_ends (hline : IsLine line) :
    Ends (fun fuel => charSet fuel (line ++ 0 :: rest) (List.replicate 52 0))
      (· = (line.eraseDups, List.replicate 52 0)) := by
  have hstring : string (line ++ 0 :: rest) = some line := string_append hline.zero_notMem
  have hmarks : Marks (List.replicate 52 0) [] := by
    refine ⟨List.length_replicate, fun letter hletter => iff_of_true ?_ List.not_mem_nil⟩
    obtain ⟨hnonneg, hlt⟩ := place_bounds hletter
    rw [Cells.cell, Cells.load, if_neg (by omega), List.getElem?_replicate_of_lt (by omega),
      Option.getD_some]
  simp only [charSet, strlen_eq hstring, Option.bind_eq_bind, Option.bind_some]
  have hs : line ++ 0 :: rest = [] ++ line ++ 0 :: rest := rfl
  refine (markLoop_ends [] line hline.letters hs hmarks).bind fun r hr => ?_
  obtain ⟨out, c, i⟩ := r
  obtain ⟨hout, hc⟩ := hr
  refine (clearLoop_ends hc).bind fun r hr => ?_
  subst hr
  dsimp only at hout
  exact .of_eq (fun _ => rfl) (by rw [hout, List.nil_append])

/-- The end of the line before does not matter. -/
lemma mainLoop_newline {stdin : List UInt8} {fuel : ℕ} :
    mainLoop fuel s c (10 :: stdin) = mainLoop fuel s c stdin := by
  cases fuel with
  | zero => rfl
  | succ fuel => rw [mainLoop, mainLoop, scanString_space (by decide)]

/-- **`5-2.c`**: all lines are printed right. -/
lemma main_ends {lines : List (List UInt8)} (hlines : ∀ line ∈ lines, IsLine line)
    (hs : s.length = 101) :
    Ends (fun fuel => main fuel s (text lines)) (· = lines.map List.eraseDups) := by
  induction lines generalizing s with
  | nil => exact .of_succ (.of_eq (fun _ => rfl) rfl)
  | cons line lines ih =>
      obtain ⟨hline, hlines⟩ := List.forall_mem_cons.mp hlines
      have hroom : line.length < s.length := by
        have hle := hline.length_le
        omega
      have hscan : scanString s (line ++ 10 :: text lines)
          = (put s line).map fun s => some (s, 10 :: text lines) :=
        scanString_word hline.ne_nil hline.isSpace_eq_false
      rw [put_eq hroom] at hscan
      rw [text_cons]
      refine .of_succ ?_
      simp only [main, mainLoop, hscan, Option.map_some, Option.bind_eq_bind, Option.bind_some]
      refine (charSet_ends hline).bind fun r hr => ?_
      obtain rfl := hr
      simp only [mainLoop_newline]
      refine (ih hlines ((length_put hroom).trans hs)).bind fun outs houts => ?_
      obtain rfl := houts
      exact .of_eq (fun _ => rfl) rfl

end Marking

variable {input output s : Cells UInt8} {lines : List (List UInt8)}

/-- **The letters of each line**: both programs print for every line its distinct letters, in the
order of their first occurrence, exactly when each line has at most 99 letters and what is in
`output` before it does not show. -/
theorem charSets_iff (hlines : ∀ line ∈ lines, IsLine line) (hinput : input.length = 100)
    (hs : s.length = 101) :
    (Returns (fun fuel => Growing.main fuel input output (text lines)) (lines.map List.eraseDups)
      ∧ Returns (fun fuel => Marking.main fuel s (text lines)) (lines.map List.eraseDups))
    ↔ AllClean output lines := by
  obtain ⟨outs, houts, rfl⟩ := Marking.main_ends hlines hs
  rw [and_iff_left houts, Growing.main_returns_iff hlines hinput]

/-- The lines `ab` and `c`. -/
def twoLines : List (List UInt8) := [[97, 98], [99]]

lemma isLine_twoLines : ∀ line ∈ twoLines, IsLine line :=
  List.forall_mem_cons.mpr
    ⟨⟨by decide, by decide, List.forall_mem_cons.mpr
        ⟨by decide, List.forall_mem_singleton.mpr (by decide)⟩⟩,
      List.forall_mem_singleton.mpr
        ⟨by decide, by decide, List.forall_mem_singleton.mpr (by decide)⟩⟩

/-- The theorem at two lines, with zeros in the arrays. -/
theorem charSets_iff_two :
    (Returns (fun fuel => Growing.main fuel (List.replicate 100 0) (List.replicate 100 0)
        (text twoLines)) (twoLines.map List.eraseDups)
      ∧ Returns (fun fuel => Marking.main fuel (List.replicate 101 0) (text twoLines))
        (twoLines.map List.eraseDups))
    ↔ AllClean (List.replicate 100 0) twoLines :=
  charSets_iff isLine_twoLines List.length_replicate List.length_replicate

/-- **The second of two lines** is not printed right: what the first one has put in `output` is
still there. -/
theorem growing_shows_line_before :
    ¬ Returns (fun fuel => Growing.main fuel (List.replicate 100 0) (List.replicate 100 0)
      (text twoLines)) (twoLines.map List.eraseDups) := by
  rw [Growing.main_returns_iff isLine_twoLines List.length_replicate]
  intro hclean
  have hend := (hclean 1 [99] rfl).2.2
  revert hend
  decide

end Wgs.CharSet
