import Wgs.Foundation.Cells

/-!
The strings of C, in arrays of bytes.

The string in an array is what stands in front of the first zero; without a zero, to read it is a
fault.  `gets` and `scanString` take text from the input and put it in an array, with a zero behind
it and the rest of the array as it was; text that there is no room for is a fault.  `scanned` is the
array of a program that does not ask `scanf` what it has read.
-/

namespace Foundation

namespace Strings

/-- The string in an array. -/
def string (s : Cells UInt8) : Option (List UInt8) :=
  if 0 ∈ s then some (s.takeWhile (· ≠ 0)) else none

/-- `strlen(s)` -/
def strlen (s : Cells UInt8) : Option ℤ := do return ((← string s).length : ℤ)

/-- Puts a text in front, and a zero behind it. -/
def put (s : Cells UInt8) (text : List UInt8) : Option (Cells UInt8) :=
  if text.length < s.length then some (text ++ 0 :: s.drop (text.length + 1)) else none

/-- `gets(s)`: the array with the next line, and the input behind that line; nothing at the end of
the input. -/
def gets (s : Cells UInt8) : List UInt8 → Option (Option (Cells UInt8 × List UInt8))
  | [] => some none
  | c :: stdin => do
      let s ← put s ((c :: stdin).takeWhile (· ≠ 10))
      return some (s, ((c :: stdin).dropWhile (· ≠ 10)).drop 1)

/-- White space. -/
def isSpace (c : UInt8) : Bool := c = 32 ∨ 9 ≤ c ∧ c ≤ 13

/-- `scanf("%s", s)`: the array with the next word, and the input behind it; nothing at the end of
the input. -/
def scanString (s : Cells UInt8) (stdin : List UInt8) :
    Option (Option (Cells UInt8 × List UInt8)) :=
  match stdin.dropWhile isSpace with
  | [] => some none
  | c :: stdin => do
      let s ← put s ((c :: stdin).takeWhile fun c => !isSpace c)
      return some (s, (c :: stdin).dropWhile fun c => !isSpace c)

/-- The array after `scanf("%s", s)`, as it was at the end of the input. -/
def scanned (s : Cells UInt8) (stdin : List UInt8) : Option (Cells UInt8) := do
  match ← scanString s stdin with
  | none => return s
  | some (s, _) => return s

variable {s s' : Cells UInt8} {text line rest stdin : List UInt8}

lemma string_append (h : 0 ∉ text) : string (text ++ 0 :: rest) = some text := by
  have hall : ∀ c ∈ text, decide (c ≠ 0) = true := by
    intro c hc
    exact decide_eq_true fun hzero => h (hzero ▸ hc)
  rw [string, if_pos (by simp), List.takeWhile_append_of_pos hall,
    List.takeWhile_cons_of_neg (by simp), List.append_nil]

lemma string_eq_some_iff : string s = some text ↔ 0 ∉ text ∧ ∃ rest, s = text ++ 0 :: rest := by
  constructor
  · intro h
    by_cases hzero : 0 ∈ s
    · obtain ⟨text', rest, rfl, htext'⟩ := List.eq_append_cons_of_mem hzero
      rw [string_append htext'] at h
      obtain rfl := Option.some_inj.mp h
      exact ⟨htext', rest, rfl⟩
    · rw [string, if_neg hzero] at h
      cases h
  · rintro ⟨htext, rest, rfl⟩
    exact string_append htext

lemma strlen_eq (h : string s = some text) : strlen s = some (text.length : ℤ) := by
  rw [strlen, h]
  rfl

lemma put_eq (h : text.length < s.length) :
    put s text = some (text ++ 0 :: s.drop (text.length + 1)) := if_pos h

lemma put_eq_none (h : ¬ text.length < s.length) : put s text = none := if_neg h

lemma length_put (h : text.length < s.length) :
    (text ++ 0 :: s.drop (text.length + 1)).length = s.length := by
  rw [List.length_append, List.length_cons, List.length_drop]
  omega

lemma gets_line (hline : 10 ∉ line) :
    gets s (line ++ 10 :: rest) = (put s line).map fun s => some (s, rest) := by
  have hall : ∀ c ∈ line, decide (c ≠ 10) = true := by
    intro c hc
    exact decide_eq_true fun h => hline (h ▸ hc)
  have htake : (line ++ 10 :: rest).takeWhile (· ≠ (10 : UInt8)) = line := by
    rw [List.takeWhile_append_of_pos hall, List.takeWhile_cons_of_neg (by simp), List.append_nil]
  have hdrop : (line ++ 10 :: rest).dropWhile (· ≠ (10 : UInt8)) = 10 :: rest := by
    rw [List.dropWhile_append_of_pos hall, List.dropWhile_cons_of_neg (by simp)]
  cases hstdin : line ++ 10 :: rest with
  | nil => simp at hstdin
  | cons c stdin =>
      rw [hstdin] at htake hdrop
      rw [gets, htake, hdrop]
      cases put s line <;> rfl

/-- White space in front of a word is left out. -/
lemma scanString_space {c : UInt8} (hc : isSpace c) :
    scanString s (c :: stdin) = scanString s stdin := by
  rw [scanString, scanString, List.dropWhile_cons_of_pos hc]

lemma scanString_word (hne : line ≠ []) (hline : ∀ c ∈ line, isSpace c = false) :
    scanString s (line ++ 10 :: rest) = (put s line).map fun s => some (s, 10 :: rest) := by
  have hall : ∀ c ∈ line, (!isSpace c) = true := fun c hc => by simp [hline c hc]
  have htake : (line ++ 10 :: rest).takeWhile (fun c => !isSpace c) = line := by
    rw [List.takeWhile_append_of_pos hall, List.takeWhile_cons_of_neg (by decide), List.append_nil]
  have hdrop : (line ++ 10 :: rest).dropWhile (fun c => !isSpace c) = 10 :: rest := by
    rw [List.dropWhile_append_of_pos hall, List.dropWhile_cons_of_neg (by decide)]
  cases line with
  | nil => exact absurd rfl hne
  | cons c line =>
      have hstart : (c :: line ++ 10 :: rest).dropWhile isSpace = c :: (line ++ 10 :: rest) :=
        List.dropWhile_cons_of_neg (by simp [hline c List.mem_cons_self])
      rw [scanString, hstart]
      dsimp only
      rw [List.cons_append] at htake hdrop
      rw [htake, hdrop]
      cases put s (c :: line) <;> rfl

lemma length_scanned (h : scanned s stdin = some s') : s'.length = s.length := by
  obtain ⟨r, hr, h⟩ := Option.bind_eq_some_iff.mp h
  rw [scanString] at hr
  split at hr
  · obtain rfl := Option.some_inj.mp hr
    rw [← Option.some_inj.mp h]
  · obtain ⟨s₁, hput, hr⟩ := Option.bind_eq_some_iff.mp hr
    obtain rfl := Option.some_inj.mp hr
    obtain rfl := Option.some_inj.mp h
    rw [put] at hput
    split_ifs at hput with hroom
    rw [← Option.some_inj.mp hput, length_put hroom]

/-- A word that there is room for is the string afterwards. -/
lemma scanned_word (s : Cells UInt8) (line rest : List UInt8) (hne : line ≠ [])
    (hline : line.all fun c => !isSpace c) (hzero : 0 ∉ line) (hroom : line.length < s.length) :
    ∃ s', scanned s (line ++ 10 :: rest) = some s' ∧ string s' = some line := by
  have hword : ∀ c ∈ line, isSpace c = false := fun c hc =>
    Bool.not_eq_true' _ ▸ List.all_eq_true.mp hline c hc
  refine ⟨line ++ 0 :: s.drop (line.length + 1), ?_, string_append hzero⟩
  rw [scanned, scanString_word hne hword, put_eq hroom]
  rfl

/-! ### The characters of a string -/

lemma length_lt_of_string (h : string s = some text) : text.length < s.length := by
  obtain ⟨-, rest, rfl⟩ := string_eq_some_iff.mp h
  rw [List.length_append, List.length_cons]
  omega

lemma segment_of_string (h : string s = some text) : s.segment 0 (text.length - 1) = text := by
  obtain ⟨-, rest, rfl⟩ := string_eq_some_iff.mp h
  have hlen : ((text.length : ℤ) - 1 + 1 - 0).toNat = text.length := by omega
  rw [Cells.segment, hlen, Int.toNat_zero, List.drop_zero, List.take_left]

lemma getElem?_of_string {k : ℕ} (h : string s = some text) (hk : k < text.length) :
    text[k]? = some (s.cell k) := by
  obtain ⟨-, rest, rfl⟩ := string_eq_some_iff.mp h
  have hk' : k < (text ++ 0 :: rest).length := by
    rw [List.length_append]
    omega
  rw [Cells.cell_natCast hk', List.getElem_append_left hk, List.getElem?_eq_getElem hk]

/-- Behind the characters there is the zero, which is none of them. -/
lemma cell_ne_of_string {k : ℕ} (h : string s = some text) (hk : k < text.length) :
    s.cell k ≠ s.cell text.length := by
  have hchar := List.mem_of_getElem? (getElem?_of_string h hk)
  obtain ⟨hzero, rest, rfl⟩ := string_eq_some_iff.mp h
  have hlen : text.length < (text ++ 0 :: rest).length := length_lt_of_string h
  have hend : Cells.cell (text ++ 0 :: rest) text.length = 0 := by
    rw [Cells.cell_natCast hlen, List.getElem_append_right le_rfl]
    simp
  intro heq
  rw [heq, hend] at hchar
  exact hzero hchar

end Strings

end Foundation
