import Wgs.Base64.Codec
import Wgs.Foundation.Runs

/-!
Encoding and decoding again.

The text of a byte string is the text of its sextets, which has no `'='` and no zero, and the
padding behind it (`encodedText_eq`).  The decoder counts the padding, skips it and gives the bytes
back (`decode_sextets`): as long as the length of the text is an `int` (`base64_round_trip`).
-/

namespace Wgs

open Foundation

/-! ### The text -/

/-- The text of a byte string, without the terminating zero. -/
def encodedText (s : List CChar) : List CChar := groupwise 3 encodeGroup s

/-- The text of a byte string up to the padding. -/
def sextetText (s : List CChar) : List CChar := groupwise 3 sextetChars s

/-- How many `'='` end the text of `n` bytes. -/
def padding (n : ℕ) : ℕ := (3 - n % 3) % 3

variable {g s : List CChar}

lemma padding_le {n : ℕ} : padding n ≤ 2 := by
  rw [padding]
  omega

lemma encodeGroup_eq (hlen : g.length ≤ 3) :
    encodeGroup g = sextetChars g ++ List.replicate (3 - g.length) (ascii '=') := by
  rw [encodeGroup, sextetChars]
  generalize g.length = n at hlen
  interval_cases n <;> rfl

/-- **The text is the sextets and the padding.** -/
lemma encodedText_eq :
    encodedText s = sextetText s ++ List.replicate (padding s.length) (ascii '=') := by
  rw [encodedText, sextetText]
  induction s using group_induction (show 0 < 3 by norm_num) with
  | nil => simp [padding]
  | short g hg hlt =>
      have hpos : 0 < g.length := List.length_pos_iff.mpr hg
      have hpad : padding g.length = 3 - g.length := by
        rw [padding, Nat.mod_eq_of_lt hlt, Nat.mod_eq_of_lt (by omega)]
      rw [groupwise_of_length_le hg hlt.le, groupwise_of_length_le hg hlt.le,
        encodeGroup_eq hlt.le, hpad]
  | group g l hg ih =>
      have hpad : padding (g ++ l).length = padding l.length := by
        rw [padding, padding, List.length_append, hg, Nat.add_mod_left]
      rw [groupwise_append (by norm_num) hg, groupwise_append (by norm_num) hg, ih,
        encodeGroup_eq hg.le, hg, hpad]
      simp

lemma length_encodedText : (encodedText s).length = 4 * ((s.length + 2) / 3) :=
  length_groupwise (by norm_num) fun g => by simp [encodeGroup]

lemma length_sextetText : (sextetText s).length + padding s.length = (encodedText s).length := by
  rw [encodedText_eq, List.length_append, List.length_replicate]

/-- The sextets are neither padding nor the end of the text. -/
lemma ne_of_mem_sextetText {c : CChar} (hc : c ∈ sextetText s) : c ≠ ascii '=' ∧ c ≠ 0 := by
  have hbase : ∀ i : Fin 64, base.getD i 0 ≠ ascii '=' ∧ base.getD i 0 ≠ 0 := by decide +kernel
  obtain ⟨g, hg⟩ := exists_of_mem_groupwise (by norm_num) hc
  obtain ⟨i, -, rfl⟩ := List.mem_map.mp hg
  exact hbase ⟨_, digit_lt (by norm_num)⟩

/-- `strlen` finds the end of the text. -/
lemma strlen_encodedText : strlen (encodedText s ++ [0]) = some (encodedText s).length := by
  have hzero : ∀ c ∈ encodedText s, ¬ c = 0 := by
    intro c hc
    rw [encodedText_eq, List.mem_append] at hc
    rcases hc with hc | hc
    · exact (ne_of_mem_sextetText hc).2
    · rw [List.eq_of_mem_replicate hc]
      decide
  rw [strlen, List.findIdx?_append, List.findIdx?_eq_none_iff.mpr (by simpa using hzero)]
  simp

/-! ### The encoder -/

/-- The length computed for the text and the zero behind it. -/
lemma encodeRetLen_eq {n : ℕ} (hn : n ≤ 1610612733) :
    encodeRetLen n = 4 * ((n + 2) / 3 : ℕ) + 1 := by
  rw [encodeRetLen, toInt32, Int.tdiv_eq_ediv_of_nonneg (by omega),
    Int.tmod_eq_emod_of_nonneg (by omega)]
  split <;> omega

/-- The encoder returns the bytes it has written. -/
lemma base64Encode_cursor (fuel : ℕ) (data : List CChar) (dataLen : ℤ) :
    base64Encode fuel data dataLen = (base64EncodeCursor fuel data dataLen).map Cursor.bytes := by
  simp [base64Encode, base64EncodeCursor, Option.map_eq_bind, Option.bind_assoc]

/-- **The encoder writes the text** and a zero. -/
lemma base64EncodeCursor_eq {data : List CChar} (hdata : s <+: data)
    (hlen : s.length ≤ 1610612733) {fuel : ℕ} (hfuel : s.length + 3 < fuel) :
    base64EncodeCursor fuel data s.length
      = some ⟨encodedText s ++ [0], (encodedText s).length⟩ := by
  have hret : mallocZeroed (encodeRetLen s.length)
      = some (List.replicate ((encodedText s).length + 1) 0) := by
    rw [encodeRetLen_eq hlen, mallocZeroed, if_neg (by omega), length_encodedText]
    congr 2
  rw [base64EncodeCursor, hret]
  exact (groupLoop_stored (by norm_num) encodeEmit_writes hdata rfl (Nat.lt_succ_self _)
    hfuel).trans (by simp [encodedText])

lemma base64Encode_eq {data : List CChar} (hdata : s <+: data) (hlen : s.length ≤ 1610612733)
    {fuel : ℕ} (hfuel : s.length + 3 < fuel) :
    base64Encode fuel data s.length = some (encodedText s ++ [0]) := by
  rw [base64Encode_cursor, base64EncodeCursor_eq hdata hlen hfuel]
  rfl

/-! ### The decoder -/

/-- The decoder undoes the encoder up to a zero behind a group that is not full. -/
lemma decode_sextets (junk : CChar) : groupwise 4 (decodeGroup junk) (sextetText s)
    = s ++ List.replicate (if s.length % 3 = 0 then 0 else 1) 0 := by
  have hlength : ∀ g : List CChar, (sextetChars g).length = g.length + 1 := fun g => by
    rw [sextetChars, List.length_map, List.length_range]
  rw [sextetText]
  induction s using group_induction (show 0 < 3 by norm_num) with
  | nil => simp
  | short g hg hlt =>
      have hpos : 0 < g.length := List.length_pos_iff.mpr hg
      have hne : sextetChars g ≠ [] := List.length_pos_iff.mp (by rw [hlength]; omega)
      rw [groupwise_of_length_le hg hlt.le,
        groupwise_of_length_le hne (by rw [hlength]; omega), decodeGroup_sextetChars junk hg hlt.le,
        if_neg (by omega), if_neg (by omega)]
  | group g l hg ih =>
      have hne : g ≠ [] := List.length_pos_iff.mp (by omega)
      rw [groupwise_append (by norm_num) hg, groupwise_append (by norm_num) (by rw [hlength, hg]),
        ih, decodeGroup_sextetChars junk hne hg.le, if_pos hg, List.length_append, hg,
        Nat.add_mod_left]
      simp

lemma length_encodedText_pos (hpos : 0 < s.length) : 4 ≤ (encodedText s).length := by
  rw [length_encodedText]
  omega

section Padded

variable {data body : List CChar} {pad : ℕ}

/-- A character at the end of a padded text: it is padding, or it is not `'='`. -/
lemma charAt_padded (hbody : ∀ c ∈ body, c ≠ ascii '=')
    (hdata : body ++ List.replicate pad (ascii '=') <+: data) {j : ℕ} (hj : 1 ≤ j)
    (hjlen : j ≤ body.length + pad) :
    ∃ c, charAt data ((body.length + pad : ℕ) - j) = some c ∧ (c = ascii '=' ↔ j ≤ pad) := by
  have hlength : (body ++ List.replicate pad (ascii '=')).length = body.length + pad := by simp
  have hi : body.length + pad - j < (body ++ List.replicate pad (ascii '=')).length := by omega
  have hread : charAt data ((body.length + pad : ℕ) - j)
      = some (body ++ List.replicate pad (ascii '='))[body.length + pad - j] := by
    obtain ⟨rest, rfl⟩ := hdata
    rw [charAt, if_neg (by omega), ← Nat.cast_sub hjlen, Int.toNat_natCast,
      List.getElem?_append_left hi, List.getElem?_eq_getElem hi]
  refine ⟨_, hread, ?_⟩
  by_cases hpad : j ≤ pad
  · rw [List.getElem_append_right (by omega), List.getElem_replicate]
    exact ⟨fun _ => hpad, fun _ => rfl⟩
  · rw [List.getElem_append_left (by omega)]
    exact ⟨fun heq => absurd heq (hbody _ (List.getElem_mem _)), fun hle => absurd hle hpad⟩

/-- The decoder counts the padding. -/
lemma equalCount_padded (hbody : ∀ c ∈ body, c ≠ ascii '=')
    (hdata : body ++ List.replicate pad (ascii '=') <+: data) (hpad : pad ≤ 2)
    (hlen : 3 ≤ body.length + pad) :
    equalCount data (body.length + pad : ℕ) = some pad := by
  obtain ⟨c₁, hread₁, hc₁⟩ := charAt_padded hbody hdata (show 1 ≤ 1 by omega) (by omega)
  obtain ⟨c₂, hread₂, hc₂⟩ := charAt_padded hbody hdata (show 1 ≤ 2 by omega) (by omega)
  obtain ⟨c₃, hread₃, hc₃⟩ := charAt_padded hbody hdata (show 1 ≤ 3 by omega) (by omega)
  have hcount : [c₁, c₂, c₃].count (ascii '=') = pad := by
    simp only [List.count_cons, List.count_nil, beq_iff_eq, hc₁, hc₂, hc₃]
    interval_cases pad <;> rfl
  have hread := And.intro hread₁ (And.intro hread₂ hread₃)
  push_cast at hread
  rw [equalCount]
  push_cast
  rw [hread.1, hread.2.1, hread.2.2]
  exact congrArg some hcount

end Padded

/-- The decoder counts the padding of a text of the encoder. -/
lemma equalCount_encodedText (hpos : 0 < s.length) {data : List CChar}
    (hdata : encodedText s <+: data) :
    equalCount data (encodedText s).length = some (padding s.length) := by
  have hlen := length_encodedText_pos hpos
  have hlength := length_sextetText (s := s)
  rw [← hlength]
  rw [encodedText_eq] at hdata
  exact equalCount_padded (fun c hc => (ne_of_mem_sextetText hc).1) hdata padding_le (by omega)

/-- The length computed for the bytes and the zero behind them. -/
lemma decodeRetLen_eq {n p : ℕ} (hp : p ≤ 2) :
    decodeRetLen n p = (n / 4 * 3 + if p = 2 then 3 else 4 : ℕ) := by
  have hdiv : ((n : ℤ).tdiv 4) = (n / 4 : ℕ) := Int.tdiv_eq_ediv_of_nonneg (by omega)
  interval_cases p <;> simp only [decodeRetLen, hdiv] <;> push_cast <;> rfl

/-- The decoder returns the bytes it has written. -/
lemma base64Decode_cursor (fuel : ℕ) (junk : CChar) (data : List CChar) (dataLen : ℤ) :
    base64Decode fuel junk data dataLen
      = (base64DecodeCursor fuel junk data dataLen).map Cursor.bytes := by
  simp [base64Decode, base64DecodeCursor, Option.map_eq_bind, Option.bind_assoc]

/-- **The decoder returns the bytes**, and zeros behind them. -/
lemma base64Decode_eq (junk : CChar) (hpos : 0 < s.length) {data : List CChar}
    (hdata : encodedText s <+: data) :
    ∃ k, ∀ fuel, (encodedText s).length + 4 < fuel →
      base64Decode fuel junk data (encodedText s).length
        = some (s ++ List.replicate (k + 1) 0) := by
  have hlength := length_sextetText (s := s)
  have htext := length_encodedText (s := s)
  have hpad : padding s.length = (3 - s.length % 3) % 3 := rfl
  have hret := decodeRetLen_eq (n := (encodedText s).length) (padding_le (n := s.length))
  generalize hsize : (encodedText s).length / 4 * 3 + (if padding s.length = 2 then 3 else 4) = size
    at hret
  have hlt : s.length + 1 < size := by
    split at hsize <;> omega
  have hstop : ((sextetText s).length : ℤ) = (encodedText s).length - (padding s.length : ℕ) := by
    omega
  have hroom : (groupwise 4 (decodeGroup junk) (sextetText s)).length < size := by
    rw [decode_sextets, List.length_append, List.length_replicate]
    split <;> omega
  have hsextets : sextetText s <+: data :=
    (encodedText_eq (s := s) ▸ List.prefix_append _ _ : sextetText s <+: encodedText s).trans hdata
  obtain ⟨k, hk⟩ := Nat.exists_eq_add_of_lt hlt
  refine ⟨k + 1, fun fuel hfuel => ?_⟩
  have hloop := groupLoop_stored (by norm_num) (decodeEmit_writes junk) hsextets hstop hroom
    (show (sextetText s).length + 4 < fuel by omega)
  rw [decode_sextets] at hloop
  rw [base64Decode_cursor, base64DecodeCursor, equalCount_encodedText hpos hdata,
    Option.bind_eq_bind, Option.bind_some, hret, mallocZeroed, if_neg (by omega)]
  refine (congrArg (Option.map Cursor.bytes) hloop).trans ?_
  simp only [Option.map_some, List.append_assoc, List.replicate_append_replicate,
    List.length_append, List.length_replicate]
  congr 3
  split <;> omega

/-! ### The round trip -/

/-- Encoding `s`, which `rest` follows in memory, and decoding the text again gives a buffer that
begins with `s` and holds zeros from there on. -/
def RoundTrips (junk : CChar) (s rest : List CChar) : Prop :=
  ∃ text len buf, Returns (base64Encode · (s ++ rest) s.length) text ∧ strlen text = some len
    ∧ Returns (base64Decode · junk text len) buf
    ∧ buf.take s.length = s ∧ ∀ c ∈ buf.drop s.length, c = 0

/-- **The round trip**: a byte string that is not empty survives, as long as the length of its text
is an `int`. -/
theorem base64_round_trip (junk : CChar) (s rest : List CChar) (hpos : 1 ≤ s.length)
    (hlen : s.length ≤ 1610612733) : RoundTrips junk s rest := by
  have hencode : Returns (base64Encode · (s ++ rest) s.length) (encodedText s ++ [0]) :=
    ⟨s.length + 4, fun fuel hfuel =>
      base64Encode_eq (List.prefix_append s rest) hlen (by omega)⟩
  obtain ⟨k, hdecode⟩ := base64Decode_eq junk hpos (List.prefix_append (encodedText s) [0])
  have hdecode : Returns
      (base64Decode · junk (encodedText s ++ [0]) (encodedText s).length)
      (s ++ List.replicate (k + 1) 0) :=
    ⟨(encodedText s).length + 5, fun fuel hfuel => hdecode fuel (by omega)⟩
  refine ⟨_, _, _, hencode, strlen_encodedText, hdecode, List.take_left, fun c hc => ?_⟩
  rw [List.drop_left] at hc
  exact List.eq_of_mem_replicate hc

/-- A byte string with a negative `char` and a zero. -/
theorem base64_round_trip_two : RoundTrips 0 [0xFF, 0x00] [] :=
  base64_round_trip 0 [0xFF, 0x00] [] (by decide) (by decide)

/-- Beyond the bound `ret_len` overflows, the allocation fails and there is no text. -/
lemma base64Encode_of_large {fuel n : ℕ} {data : List CChar} (hn : 1610612733 < n)
    (hint : n ≤ 2147483647) : base64Encode fuel data n = none := by
  have hneg : encodeRetLen n < 0 := by
    rw [encodeRetLen, toInt32, Int.tdiv_eq_ediv_of_nonneg (by omega),
      Int.tmod_eq_emod_of_nonneg (by omega)]
    split <;> omega
  rw [base64Encode, mallocZeroed, if_pos hneg]
  rfl

/-- The bound is exact for the lengths that are an `int`. -/
lemma not_roundTrips_of_large {junk : CChar} {s rest : List CChar} (hlen : 1610612733 < s.length)
    (hint : s.length ≤ 2147483647) : ¬ RoundTrips junk s rest := by
  rintro ⟨text, len, buf, ⟨fuel, hencode⟩, -⟩
  have htext : base64Encode fuel (s ++ rest) s.length = some text := hencode fuel le_rfl
  rw [base64Encode_of_large hlen hint] at htext
  cases htext

/-- One byte more than the bound: `ret_len` is negative and there is no text. -/
theorem base64_overflow : ¬ RoundTrips 0 (List.replicate 1610612734 0) [] :=
  not_roundTrips_of_large (by rw [List.length_replicate]; norm_num)
    (by rw [List.length_replicate]; norm_num)

end Wgs
