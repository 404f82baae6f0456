import Wgs.Base64.RoundTrip
import Wgs.Foundation.Bits

/-!
The encoder and the decoder against RFC 4648.

The standard is stated of strings of bits (`Rfc4648.encode`, `Rfc4648.decode`): the bits of the
bytes are served in groups of six, and those of the sextets in groups of eight.  The encoder writes
the standard text (`base64Encode_standard_iff`).  The decoder stores the standard bytes, but where
the text is padded it stores the bits left over as one byte more (`base64Decode_standard_iff`): it
stops the last group after as many bytes as there are characters in it.
-/

namespace Wgs

open Foundation

namespace Rfc4648

/-- The alphabet. -/
def alphabet : List CChar :=
  "ABCDEFGHIJKLMNOPQRSTUVWXYZabcdefghijklmnopqrstuvwxyz0123456789+/".toList.map ascii

/-- The bits of the bytes, with zeros on the right up to a multiple of six. -/
def paddedBits (s : List CChar) : List Bool :=
  let bits := (s.map BitVec.toNat).flatMap (bitsOf 8)
  bits ++ List.replicate ((6 - bits.length % 6) % 6) false

/-- The characters of the groups of six bits. -/
def sextets (s : List CChar) : List CChar :=
  groupwise 6 (fun g => [alphabet.getD (ofBits g) 0]) (paddedBits s)

/-- The text of a byte string: its sextets, with `'='` up to a multiple of four. -/
def encode (s : List CChar) : List CChar :=
  sextets s ++ List.replicate ((4 - (sextets s).length % 4) % 4) (ascii '=')

/-- The bits of characters of the alphabet. -/
def sextetBits (body : List CChar) : List Bool := (body.map alphabet.idxOf).flatMap (bitsOf 6)

/-- The bytes of the characters before the padding; what is left of the bits is discarded. -/
def decode (body : List CChar) : List CChar :=
  let bits := sextetBits body
  groupwise 8 (fun g => [BitVec.ofNat 8 (ofBits g)]) (bits.take (8 * (bits.length / 8)))

/-- A padded text: characters of the alphabet and at most two `'='`, a positive multiple of four
together. -/
structure WellFormed (body : List CChar) (pad : ℕ) : Prop where
  mem : ∀ c ∈ body, c ∈ alphabet
  pad_le : pad ≤ 2
  length : (body.length + pad) % 4 = 0
  pos : 0 < body.length + pad

end Rfc4648

open Rfc4648

/-! ### The encoder -/

variable {g s : List CChar}

/-- The alphabet is what the table of the source starts with. -/
lemma alphabet_eq : alphabet = base.take 64 := by decide +kernel

lemma base_eq_alphabet {i : ℕ} (hi : i < 64) : base.getD i 0 = alphabet.getD i 0 := by
  rw [alphabet_eq, List.getD_eq_getElem?_getD, List.getD_eq_getElem?_getD,
    List.getElem?_take_of_lt hi]

lemma length_paddedBits :
    (paddedBits s).length = 8 * s.length + (6 - 8 * s.length % 6) % 6 := by
  rw [paddedBits, List.length_append, List.length_replicate, length_flatMap_bitsOf, List.length_map]

/-- The groups of six bits of a group of bytes are its sextets. -/
lemma sextets_group (hpos : 0 < g.length) (hlen : g.length ≤ 3) : sextets g = sextetChars g := by
  have hbits : (paddedBits g).length = 6 * (g.length + 1) := by
    rw [length_paddedBits]
    omega
  -- the 24 bits of the group
  have hfull : paddedBits g ++ List.replicate (24 - 6 * (g.length + 1)) false
      = (g.map BitVec.toNat).flatMap (bitsOf 8)
        ++ List.replicate (8 * (3 - (g.map BitVec.toNat).length)) false := by
    rw [paddedBits, List.append_assoc, List.replicate_append_replicate, length_flatMap_bitsOf,
      List.length_map]
    congr 2
    omega
  have hvalue : ofBits (paddedBits g ++ List.replicate (24 - 6 * (g.length + 1)) false)
      = groupValue g := by
    rw [hfull, ofBits_flatMap (by simpa using fun c _ => c.isLt) (by simpa using hlen), groupValue]
    norm_num
  rw [sextets, groupwise_eq_flatMap (by norm_num) hbits, sextetChars, ← List.flatMap_pure_eq_map]
  refine List.flatMap_congr fun i hi => ?_
  have hi' : i < g.length + 1 := List.mem_range.mp hi
  have hdigit : ofBits (((paddedBits g).drop (6 * i)).take 6) = digit 64 4 (groupValue g) i := by
    rw [← take_drop_append (b := List.replicate (24 - 6 * (g.length + 1)) false) (by omega),
      digit_ofBits (n := 4) (by rw [List.length_append, hbits, List.length_replicate]; omega)
        (by omega), hvalue]
    norm_num
  rw [hdigit, ← base_eq_alphabet (digit_lt (by norm_num))]
  rfl

/-- **The sextets of the encoder are those of the standard.** -/
lemma sextetText_eq : sextetText s = sextets s := by
  rw [sextetText]
  induction s using group_induction (show 0 < 3 by norm_num) with
  | nil => simp [sextets, paddedBits]
  | short g hg hlt =>
      rw [groupwise_of_length_le hg hlt.le, sextets_group (List.length_pos_iff.mpr hg) hlt.le]
  | group g l hg ih =>
      have hsplit : paddedBits (g ++ l) = paddedBits g ++ paddedBits l := by
        have hpad : (6 - 8 * (g ++ l).length % 6) % 6 = (6 - 8 * l.length % 6) % 6 := by
          rw [List.length_append, hg]
          omega
        have hzero : (6 - 8 * g.length % 6) % 6 = 0 := by rw [hg]
        simp only [paddedBits, length_flatMap_bitsOf, List.length_map, hpad, hzero]
        simp
      have hbits : (paddedBits g).length = 6 * 4 := by rw [length_paddedBits, hg]
      rw [groupwise_append (by norm_num) hg, ih, ← sextets_group (by omega) hg.le, sextets,
        sextets, sextets, hsplit, groupwise_append_of_length (by norm_num) hbits]

/-- **The text of the encoder is the standard text.** -/
theorem encodedText_standard : encodedText s = encode s := by
  have hlength := length_sextetText (s := s)
  have hpad : (4 - (sextets s).length % 4) % 4 = padding s.length := by
    rw [← sextetText_eq]
    rw [length_encodedText, padding] at hlength
    rw [padding]
    omega
  rw [encodedText_eq, encode, sextetText_eq, hpad]

/-- The encoder writes the standard text of `s`, which `rest` follows in memory, with a zero behind
it, and that is all of the allocation. -/
def EncodesStandardly (s rest : List CChar) : Prop :=
  ∃ f : Cursor CChar, Returns (base64EncodeCursor · (s ++ rest) s.length) f
    ∧ f.pos = 4 * ((s.length + 2) / 3) ∧ f.bytes.take f.pos = encode s
    ∧ f.bytes[f.pos]? = some 0 ∧ (f.bytes.length : ℤ) = encodeRetLen s.length

/-- **The encoder follows the standard** exactly as long as the length of the text, computed in an
`int`, does not overflow. -/
theorem base64Encode_standard_iff (s rest : List CChar) (hint : s.length ≤ 2147483647) :
    EncodesStandardly s rest ↔ s.length ≤ 1610612733 := by
  constructor
  · rintro ⟨f, ⟨fuel, hf⟩, -⟩
    by_contra hlen
    have hnone : base64Encode fuel (s ++ rest) s.length = none :=
      base64Encode_of_large (by omega) hint
    have hsome : base64EncodeCursor fuel (s ++ rest) s.length = some f := hf fuel le_rfl
    rw [base64Encode_cursor, hsome] at hnone
    cases hnone
  · intro hlen
    have htext := length_encodedText (s := s)
    refine ⟨_, ⟨s.length + 4, fun fuel hfuel =>
      base64EncodeCursor_eq (List.prefix_append s rest) hlen (by omega)⟩, htext, ?_, ?_, ?_⟩
    · rw [List.take_left, encodedText_standard]
    · rw [List.getElem?_append_right le_rfl, Nat.sub_self]
      rfl
    · rw [encodeRetLen_eq hlen, List.length_append, htext]
      push_cast
      rfl

/-- Two bytes, the text of which is padded. -/
theorem base64Encode_standard_two : EncodesStandardly [0xFF, 0x00] [] :=
  (base64Encode_standard_iff [0xFF, 0x00] [] (by decide)).mpr (by decide)

/-- One byte more than the bound: `ret_len` is negative and nothing is written. -/
theorem base64Encode_standard_overflow :
    ¬ EncodesStandardly (List.replicate 1610612734 0) [] := by
  rintro ⟨f, ⟨fuel, hf⟩, -⟩
  have hsome : base64EncodeCursor fuel (List.replicate 1610612734 0 ++ [])
      (List.replicate 1610612734 (0 : CChar)).length = some f := hf fuel le_rfl
  have hnone : base64Encode fuel (List.replicate 1610612734 0 ++ [])
      (List.replicate 1610612734 (0 : CChar)).length = none := base64Encode_of_large
    (by rw [List.length_replicate]; norm_num) (by rw [List.length_replicate]; norm_num)
  rw [base64Encode_cursor, hsome] at hnone
  cases hnone

/-! ### The decoder -/

variable {body l : List CChar} {pad : ℕ}

/-- `find_pos` on the alphabet. -/
lemma findPos_toNat (junk : CChar) {c : CChar} (hc : c ∈ alphabet) :
    (findPos junk c).toNat = alphabet.idxOf c ∧ alphabet.idxOf c < 64 := by
  have hlength : alphabet.length = 64 := by
    rw [alphabet_eq]
    decide +kernel
  have hidx := List.idxOf_lt_length_iff.mpr hc
  have hlt : alphabet.idxOf c < 64 := hlength ▸ hidx
  have hbase : base.getD (alphabet.idxOf c) 0 = c := by
    rw [base_eq_alphabet hlt, List.getD_eq_getElem?_getD, List.getElem?_eq_getElem hidx,
      Option.getD_some, List.getElem_idxOf]
  have hfind := findPos_base junk hlt
  rw [hbase] at hfind
  exact ⟨hfind, hlt⟩

lemma length_sextetBits : (sextetBits body).length = 6 * body.length := by
  rw [sextetBits, length_flatMap_bitsOf, List.length_map]

/-- The bytes written for a group of at least two characters: those of the standard, and one more
if the group is not full. -/
lemma decodeGroup_standard (junk : CChar) (hmem : ∀ c ∈ g, c ∈ alphabet) (hpos : 2 ≤ g.length)
    (hlen : g.length ≤ 4) :
    ∃ more, decodeGroup junk g = decode g ++ more
      ∧ more.length = if g.length = 4 then 0 else 1 := by
  have hvals : (g.map fun c => (findPos junk c).toNat) = g.map alphabet.idxOf :=
    List.map_congr_left fun c hc => (findPos_toNat junk (hmem c hc)).1
  have hlt : ∀ c ∈ g, (findPos junk c).toNat < 64 := fun c hc => by
    rw [(findPos_toNat junk (hmem c hc)).1]
    exact (findPos_toNat junk (hmem c hc)).2
  set value := leading 64 4 (g.map alphabet.idxOf) with hvalue
  have hgathered : (g.foldl (decodeShift junk) 0 <<< ((4 - g.length) * 6)).toNat = value := by
    rw [decode_gathered junk hlen hlt, hvals]
  have hvalue_lt : value < 2 ^ 24 := by
    refine leading_lt ?_ (by norm_num)
    simpa using fun c hc => (findPos_toNat junk (hmem c hc)).2
  have hbyte : ∀ i, decodedByte (g.foldl (decodeShift junk) 0 <<< ((4 - g.length) * 6)) i
      = BitVec.ofNat 8 (digit 256 3 value i) := fun i => by
    refine BitVec.eq_of_toNat_eq ?_
    rw [decodedByte_toNat (hgathered ▸ hvalue_lt), hgathered, BitVec.toNat_ofNat,
      Nat.mod_eq_of_lt (digit_lt (by norm_num))]
  -- the 24 bits of the group
  have hbits : ofBits (sextetBits g ++ List.replicate (6 * (4 - g.length)) false) = value := by
    have hflat : ofBits ((g.map alphabet.idxOf).flatMap (bitsOf 6)
        ++ List.replicate (6 * (4 - (g.map alphabet.idxOf).length)) false)
        = leading (2 ^ 6) 4 (g.map alphabet.idxOf) := ofBits_flatMap
      (by simpa using fun c hc => (findPos_toNat junk (hmem c hc)).2) (by simpa using hlen)
    rwa [List.length_map] at hflat
  have hdigit : ∀ i < g.length - 1,
      ofBits (((sextetBits g).drop (8 * i)).take 8) = digit 256 3 value i := fun i hi => by
    rw [← take_drop_append (b := List.replicate (6 * (4 - g.length)) false)
        (by rw [length_sextetBits]; omega),
      digit_ofBits (n := 3) (by rw [List.length_append, length_sextetBits, List.length_replicate]
                                omega) (by omega), hbits]
    norm_num
  have hbytes : decode g = (List.range (g.length - 1)).map fun i =>
      decodedByte (g.foldl (decodeShift junk) 0 <<< ((4 - g.length) * 6)) i := by
    have hlength : ((sextetBits g).take (8 * ((sextetBits g).length / 8))).length
        = 8 * (g.length - 1) := by
      rw [List.length_take, length_sextetBits]
      omega
    rw [decode, groupwise_eq_flatMap (by norm_num) hlength, ← List.flatMap_pure_eq_map]
    refine List.flatMap_congr fun i hi => ?_
    have hi' : i < g.length - 1 := List.mem_range.mp hi
    have htake : 8 * i + 8 ≤ 8 * ((sextetBits g).length / 8) := by
      rw [length_sextetBits]
      omega
    rw [List.drop_take, List.take_take, min_eq_left (by omega), hdigit i hi', ← hbyte]
    rfl
  rw [hbytes, decodeGroup]
  generalize decodedByte (g.foldl (decodeShift junk) 0 <<< ((4 - g.length) * 6)) = byte
  generalize g.length = n at hpos hlen
  interval_cases n
  · exact ⟨[byte 1], rfl, rfl⟩
  · exact ⟨[byte 2], rfl, rfl⟩
  · exact ⟨[], rfl, rfl⟩

/-- The standard serves a full group before the others. -/
lemma decode_append (hg : g.length = 4) : decode (g ++ l) = decode g ++ decode l := by
  have hsplit : sextetBits (g ++ l) = sextetBits g ++ sextetBits l := by
    rw [sextetBits, List.map_append, List.flatMap_append]
    rfl
  have hlength : (sextetBits g).length = 8 * 3 := by rw [length_sextetBits, hg]
  have htake : 8 * ((sextetBits g ++ sextetBits l).length / 8)
      = (sextetBits g).length + 8 * ((sextetBits l).length / 8) := by
    rw [List.length_append, hlength]
    omega
  have hfull : (sextetBits g).take (8 * ((sextetBits g).length / 8)) = sextetBits g :=
    List.take_of_length_le (by rw [hlength])
  rw [decode, decode, decode, hsplit, htake, List.take_length_add_append, hfull,
    groupwise_append_of_length (by norm_num) hlength]

/-- **What the decoder stores**: the standard bytes, and one byte more if the last group is not
full. -/
lemma groupwise_decodeGroup (junk : CChar) (hmem : ∀ c ∈ body, c ∈ alphabet)
    (hlen : body.length % 4 ≠ 1) :
    ∃ more, groupwise 4 (decodeGroup junk) body = decode body ++ more
      ∧ more.length = if body.length % 4 = 0 then 0 else 1 := by
  induction body using group_induction (show 0 < 4 by norm_num) with
  | nil => exact ⟨[], by simp [decode, sextetBits], rfl⟩
  | short g hg hlt =>
      have hpos : 0 < g.length := List.length_pos_iff.mpr hg
      obtain ⟨more, hmore, hcount⟩ := decodeGroup_standard junk hmem (by omega) hlt.le
      refine ⟨more, ?_, ?_⟩
      · rw [groupwise_of_length_le hg hlt.le, hmore]
      · rw [hcount, if_neg (by omega), if_neg (by omega)]
  | group g l hg ih =>
      obtain ⟨none, hnone, hcount⟩ := decodeGroup_standard junk
        (fun c hc => hmem c (List.mem_append_left l hc)) (by omega) hg.le
      rw [if_pos hg] at hcount
      obtain rfl : none = [] := List.length_eq_zero_iff.mp hcount
      obtain ⟨more, hmore, hcount'⟩ := ih (fun c hc => hmem c (List.mem_append_right g hc))
        (by rw [List.length_append, hg] at hlen; omega)
      refine ⟨more, ?_, ?_⟩
      · rw [groupwise_append (by norm_num) hg, hnone, hmore, decode_append hg, List.append_nil,
          List.append_assoc]
      · rw [hcount', List.length_append, hg, Nat.add_mod_left]

lemma length_decode : (decode body).length = 6 * body.length / 8 := by
  rw [decode, length_groupwise (m := 1) (by norm_num) fun _ => rfl, List.length_take,
    length_sextetBits]
  omega

/-- **What the decoder leaves**: the stored bytes and the zero behind them. -/
lemma base64DecodeCursor_eq (junk : CChar) (h : WellFormed body pad) (rest : List CChar) :
    ∃ f more, Returns (base64DecodeCursor · junk
        (body ++ List.replicate pad (ascii '=') ++ rest) (body.length + pad : ℕ)) f
      ∧ f.bytes.take f.pos = decode body ++ more ∧ f.pos = (decode body ++ more).length
      ∧ more.length = if pad = 0 then 0 else 1 := by
  have hbody : ∀ c ∈ body, c ≠ ascii '=' := by
    have hpad : ascii '=' ∉ alphabet := by
      rw [alphabet_eq]
      decide +kernel
    exact fun c hc => ne_of_mem_of_not_mem (h.mem c hc) hpad
  have hpad := h.pad_le
  have hmod := h.length
  have hpos := h.pos
  obtain ⟨more, hmore, hcount⟩ := groupwise_decodeGroup junk h.mem (by omega)
  have hextra : more.length = if pad = 0 then 0 else 1 := by
    rw [hcount]
    congr 1
    rw [eq_iff_iff]
    omega
  have htext := List.prefix_append (body ++ List.replicate pad (ascii '=')) rest
  have hret := decodeRetLen_eq (n := body.length + pad) hpad
  have hroom : (groupwise 4 (decodeGroup junk) body).length
      < (body.length + pad) / 4 * 3 + if pad = 2 then 3 else 4 := by
    rw [hmore, List.length_append, length_decode, hextra]
    split <;> split <;> omega
  generalize (body.length + pad) / 4 * 3 + (if pad = 2 then 3 else 4) = size at hret hroom
  have hleft : Returns (base64DecodeCursor · junk
      (body ++ List.replicate pad (ascii '=') ++ rest) (body.length + pad : ℕ))
      ⟨decode body ++ more ++ List.replicate (size - (decode body ++ more).length) 0,
        (decode body ++ more).length⟩ := by
    refine ⟨body.length + 5, fun fuel hfuel => ?_⟩
    have hloop := groupLoop_stored (by norm_num) (decodeEmit_writes junk)
      ((List.prefix_append body _).trans htext)
      (show (body.length : ℤ) = ((body.length + pad : ℕ) : ℤ) - pad by push_cast; ring) hroom
      (show body.length + 4 < fuel by omega)
    rw [hmore] at hloop
    beta_reduce
    rw [base64DecodeCursor, equalCount_padded hbody htext hpad (by omega), Option.bind_eq_bind,
      Option.bind_some, hret, mallocZeroed, if_neg (by omega)]
    exact hloop
  exact ⟨_, more, hleft, List.take_left, rfl, hextra⟩

/-- The decoder stores the bytes of the standard and no more: `3·len/4` without the number of
`'='`. -/
def DecodesStandardly (junk : CChar) (body : List CChar) (pad : ℕ) (rest : List CChar) : Prop :=
  ∃ f : Cursor CChar, Returns (base64DecodeCursor · junk
      (body ++ List.replicate pad (ascii '=') ++ rest) (body.length + pad : ℕ)) f
    ∧ f.pos = 3 * (body.length + pad) / 4 - pad ∧ f.bytes.take f.pos = decode body

/-- **The decoder follows the standard** exactly on the texts without padding. -/
theorem base64Decode_standard_iff (junk : CChar) {body : List CChar} {pad : ℕ}
    (h : WellFormed body pad) (rest : List CChar) :
    DecodesStandardly junk body pad rest ↔ pad = 0 := by
  have hpad := h.pad_le
  have hmod := h.length
  obtain ⟨f, more, hret, hbytes, hcount, hmore⟩ := base64DecodeCursor_eq junk h rest
  rw [List.length_append, length_decode, hmore] at hcount
  constructor
  · rintro ⟨f', hret', hcount', -⟩
    obtain rfl : f' = f := hret'.unique hret
    by_contra hne
    rw [if_neg hne] at hcount
    omega
  · rintro rfl
    obtain rfl : more = [] := List.length_eq_zero_iff.mp hmore
    refine ⟨f, hret, ?_, by rw [hbytes, List.append_nil]⟩
    rw [if_pos rfl] at hcount
    omega

/-- `TWFu` is a text without padding. -/
theorem base64Decode_standard_four : DecodesStandardly 0 ("TWFu".toList.map ascii) 0 [] :=
  (base64Decode_standard_iff 0 ⟨by decide +kernel, by decide, by decide, by decide⟩ []).mpr rfl

/-- **A text that is decoded to one byte too many**: of `QR==` the bits left over are stored as a
second byte, which is not zero. -/
theorem base64Decode_leftover :
    base64DecodeCursor 5 0 ("QR==".toList.map ascii) 4 = some ⟨[0x41, 0x10, 0, 0, 0, 0], 2⟩
      ∧ decode ("QR".toList.map ascii) = [0x41]
      ∧ WellFormed ("QR".toList.map ascii) 2
      ∧ ¬ DecodesStandardly 0 ("QR".toList.map ascii) 2 [] := by
  have hwell : WellFormed ("QR".toList.map ascii) 2 :=
    ⟨by decide +kernel, by decide, by decide, by decide⟩
  refine ⟨by decide +kernel, by decide +kernel, hwell, ?_⟩
  rintro ⟨f, hret, hcount, -⟩
  obtain ⟨f', more, hret', -, hcount', hmore⟩ := base64DecodeCursor_eq 0 hwell []
  obtain rfl : f = f' := hret.unique hret'
  rw [hcount, List.length_append, length_decode, hmore] at hcount'
  revert hcount'
  decide

end Wgs
