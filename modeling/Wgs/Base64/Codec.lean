import Wgs.Base64.Program
import Wgs.Foundation.Regroup

/-!
What the loops of the encoder and the decoder write.

A group of characters becomes the group `encodeGroup` of the text, or the bytes `decodeGroup`, and
the loop writes what the groups of its input become, one after the other (`groupLoop_eq`).  A group
is collected in `prepare` as the number whose leading digits are its members
(`gathered_toNat`), three digits in base 256 for the encoder and four in base 64 for the decoder;
the characters and the bytes written are the digits of that number in the other base.
-/

namespace Wgs

open Foundation

/-! ### The loops -/

section Loops

variable {w : ℕ} {shift : BitVec 32 → CChar → BitVec 32} {data g l : List CChar} {stop : ℤ}
  {emit : ℕ → BitVec 32 → Cursor CChar → Option (Cursor CChar)} {out : List CChar → List CChar}

/-- What is written for a group of up to `w` characters, if there is room for it, is `out` of the
group. -/
def Writes (w : ℕ) (shift : BitVec 32 → CChar → BitVec 32)
    (emit : ℕ → BitVec 32 → Cursor CChar → Option (Cursor CChar))
    (out : List CChar → List CChar) : Prop :=
  ∀ g, g.length ≤ w → ∀ done k, (out g).length ≤ k →
    emit g.length (g.foldl shift 0) (.behind done 0 k)
      = some (.behind (done ++ out g) 0 (k - (out g).length))

/-- The inner loop takes the characters up to a full group or the end of the input. -/
lemma gather_eq {fuel tmp temp : ℕ} {prepare : BitVec 32} (hdata : g <+: data.drop tmp)
    (hend : (tmp + g.length : ℕ) ≤ stop) (hfull : temp + g.length ≤ w)
    (hstop : temp + g.length = w ∨ (tmp + g.length : ℕ) = stop) (hfuel : g.length < fuel) :
    gather w shift data stop fuel tmp temp prepare
      = some (tmp + g.length, temp + g.length, g.foldl shift prepare) := by
  induction g generalizing fuel tmp temp prepare with
  | nil =>
      obtain ⟨fuel, rfl⟩ := Nat.exists_eq_add_of_le' (show 1 ≤ fuel by omega)
      simp only [List.length_nil, add_zero] at *
      rw [gather]
      by_cases htemp : temp < w
      · rw [if_pos htemp, if_pos (by omega), List.foldl_nil]
      · rw [if_neg htemp, List.foldl_nil]
  | cons c g ih =>
      obtain ⟨fuel, rfl⟩ := Nat.exists_eq_add_of_le' (show 1 ≤ fuel by omega)
      obtain ⟨rest, hrest⟩ := hdata
      have hc : data[tmp]? = some c := by
        rw [← Nat.add_zero tmp, ← List.getElem?_drop, ← hrest]
        rfl
      have hnext : g <+: data.drop (tmp + 1) := by
        rw [← List.drop_drop, ← hrest]
        exact ⟨rest, rfl⟩
      simp only [List.length_cons] at *
      rw [gather, if_pos (by omega), if_neg (by omega), hc, Option.bind_eq_bind, Option.bind_some,
        ih hnext (by omega) (by omega) (by omega) (by omega), List.foldl_cons,
        Nat.add_right_comm tmp, Nat.add_right_comm temp, Nat.add_assoc tmp, Nat.add_assoc temp]

/-- **The outer loop** writes what the groups of its input become, if there is room for it. -/
lemma groupLoop_eq (hw : 0 < w) (hemit : Writes w shift emit out) {fuel tmp k : ℕ}
    {done : List CChar} (hdata : l <+: data.drop tmp)
    (hstop : (tmp + l.length : ℕ) = stop) (hroom : (groupwise w out l).length ≤ k)
    (hfuel : l.length + w < fuel) :
    groupLoop w shift emit data stop fuel tmp (.behind done 0 k)
      = some (.behind (done ++ groupwise w out l) 0 (k - (groupwise w out l).length)) := by
  induction l using group_induction hw generalizing fuel tmp k done with
  | nil =>
      obtain ⟨fuel, rfl⟩ := Nat.exists_eq_add_of_le' (show 1 ≤ fuel by omega)
      simp only [List.length_nil] at hstop
      rw [groupLoop, if_neg (by omega)]
      simp
  | short g hg hlt =>
      obtain ⟨fuel, rfl⟩ := Nat.exists_eq_add_of_le' (show 2 ≤ fuel by omega)
      have hpos : 0 < g.length := List.length_pos_iff.mpr hg
      rw [groupwise_of_length_le hg hlt.le] at hroom ⊢
      rw [groupLoop, if_pos (by omega),
        gather_eq hdata hstop.le (by omega) (Or.inr hstop) (by omega), zero_add]
      simp only [Option.bind_eq_bind, Option.bind_some, hemit g hlt.le done k hroom]
      rw [groupLoop, if_neg (by omega)]
  | group g l hg ih =>
      obtain ⟨fuel, rfl⟩ := Nat.exists_eq_add_of_le' (show 1 ≤ fuel by omega)
      rw [List.length_append] at hstop hfuel
      rw [groupwise_append hw hg, List.length_append] at hroom
      have hg' : g <+: data.drop tmp := (List.prefix_append g l).trans hdata
      have hl : l <+: data.drop (tmp + g.length) := by
        obtain ⟨rest, hrest⟩ := hdata
        refine ⟨rest, ?_⟩
        rw [← List.drop_drop, ← hrest, List.append_assoc, List.drop_left]
      rw [groupLoop, if_pos (by omega),
        gather_eq hg' (by omega) (by omega) (Or.inl (by omega)) (by omega), zero_add]
      simp only [Option.bind_eq_bind, Option.bind_some, hemit g hg.le done k (by omega)]
      rw [ih hl (by omega) (by omega) (by omega), groupwise_append hw hg, List.append_assoc,
        List.length_append, Nat.sub_sub]

/-- The outer loop on an allocation, and the zero behind what it writes. -/
lemma groupLoop_stored (hw : 0 < w) (hemit : Writes w shift emit out) {fuel size : ℕ}
    (hdata : l <+: data) (hstop : (l.length : ℤ) = stop)
    (hroom : (groupwise w out l).length < size) (hfuel : l.length + w < fuel) :
    ((groupLoop w shift emit data stop fuel 0 ⟨List.replicate size 0, 0⟩).bind fun f => f.store 0)
      = some ⟨groupwise w out l ++ List.replicate (size - (groupwise w out l).length) 0,
          (groupwise w out l).length⟩ := by
  obtain ⟨k, rfl⟩ := Nat.exists_eq_add_of_lt hroom
  have hloop : groupLoop w shift emit data stop fuel 0
        (.behind [] 0 ((groupwise w out l).length + k + 1))
      = some (.behind ([] ++ groupwise w out l) 0
          ((groupwise w out l).length + k + 1 - (groupwise w out l).length)) :=
    groupLoop_eq hw hemit hdata (by omega) hroom.le hfuel
  have hrest : (groupwise w out l).length + k + 1 - (groupwise w out l).length = k + 1 := by omega
  rw [hrest] at hloop ⊢
  refine (congrArg (fun o => Option.bind o _) hloop).trans ?_
  rw [Option.bind_some, Cursor.store_behind, List.nil_append, List.replicate_succ]

end Loops

/-! ### The value of a group -/

section Values

variable {r bits w : ℕ} {shift : BitVec 32 → CChar → BitVec 32} {val : CChar → ℕ}
  {g : List CChar}

/-- A loop that shifts digits in from the right collects their number. -/
lemma foldl_toNat (hr : 0 < r) (hw : r ^ w ≤ 2 ^ 24)
    (hshift : ∀ p c, p.toNat * r < 2 ^ 24 → val c < r → (shift p c).toNat = p.toNat * r + val c)
    (hval : ∀ c ∈ g, val c < r) (hlen : g.length ≤ w) {p : BitVec 32}
    (hp : p.toNat < r ^ (w - g.length)) :
    (g.foldl shift p).toNat = (g.map val).foldl (fun v d => v * r + d) p.toNat := by
  induction g generalizing p with
  | nil => rfl
  | cons c g ih =>
      simp only [List.length_cons] at hlen hp
      have hc : val c < r := hval c (by simp)
      have hpow : r ^ (w - (g.length + 1)) * r = r ^ (w - g.length) := by
        rw [← pow_succ]
        congr 1
        omega
      have hnext : p.toNat * r + val c < r ^ (w - g.length) := by
        calc p.toNat * r + val c < (p.toNat + 1) * r := by rw [add_mul]; omega
          _ ≤ r ^ (w - (g.length + 1)) * r := Nat.mul_le_mul_right _ hp
          _ = r ^ (w - g.length) := hpow
      have hle : r ^ (w - g.length) ≤ r ^ w := Nat.pow_le_pow_right hr (Nat.sub_le _ _)
      have hstep : (shift p c).toNat = p.toNat * r + val c := hshift p c (by omega) hc
      rw [List.foldl_cons, List.map_cons, List.foldl_cons, ← hstep]
      exact ih (fun d hd => hval d (by simp [hd])) (by omega) (hstep ▸ hnext)

/-- **What a group is in `prepare`** when it has been moved up to its place: the number of which its
members are the leading digits. -/
lemma gathered_toNat (hr : r = 2 ^ bits) (hw : bits * w = 24)
    (hshift : ∀ p c, p.toNat * r < 2 ^ 24 → val c < r → (shift p c).toNat = p.toNat * r + val c)
    (hval : ∀ c ∈ g, val c < r) (hlen : g.length ≤ w) :
    (g.foldl shift 0 <<< ((w - g.length) * bits)).toNat = leading r w (g.map val) := by
  have hpos : 0 < r := hr ▸ pow_pos (by norm_num) _
  have hpow : r ^ w = 2 ^ 24 := by rw [hr, ← pow_mul, hw]
  have hfold : (g.foldl shift 0).toNat = (g.map val).foldl (fun v d => v * r + d) 0 :=
    foldl_toNat hpos hpow.le hshift hval hlen (pow_pos hpos _)
  have hlead : (g.foldl shift 0).toNat * 2 ^ ((w - g.length) * bits) = leading r w (g.map val) := by
    have hmul := foldl_mul_pow (r := r) (show (g.map val).length ≤ w by simpa using hlen) 0
    rw [List.length_map, zero_mul, zero_add] at hmul
    rw [hfold, mul_comm _ bits, pow_mul, ← hr, hmul]
  have hlt : leading r w (g.map val) < 2 ^ 24 := hpow ▸ leading_lt (by simpa using hval) hpos
  rw [BitVec.toNat_shiftLeft, Nat.shiftLeft_eq, hlead, Nat.mod_eq_of_lt (by omega)]

end Values

/-- A digit shifted in from the right. -/
lemma shiftLeft_or_toNat {p d : BitVec 32} {n : ℕ} (hp : p.toNat * 2 ^ n < 2 ^ 24)
    (hd : d.toNat < 2 ^ n) : ((p <<< n) ||| d).toNat = p.toNat * 2 ^ n + d.toNat := by
  rw [BitVec.toNat_or, BitVec.toNat_shiftLeft, Nat.shiftLeft_eq, Nat.mod_eq_of_lt (by omega),
    ← Nat.shiftLeft_eq, Nat.shiftLeft_add_eq_or_of_lt hd]

/-- A digit of `prepare`, as a `char`. -/
lemma sshiftRight_and_toNat {p : BitVec 32} {k n : ℕ} (hp : p.toNat < 2 ^ 24) (hn : n ≤ 8) :
    (((p.sshiftRight k) &&& BitVec.ofNat 32 (2 ^ n - 1)).setWidth 8).toNat
      = p.toNat / 2 ^ k % 2 ^ n := by
  have hmsb : p.msb = false := by
    rw [BitVec.msb_eq_false_iff_two_mul_lt]
    omega
  have hmask : 2 ^ n - 1 < 2 ^ 8 := by
    have := Nat.pow_le_pow_right (show 0 < 2 by norm_num) hn
    omega
  have hmod : p.toNat / 2 ^ k % 2 ^ n < 2 ^ 8 :=
    (Nat.mod_lt _ (by positivity)).trans_le (Nat.pow_le_pow_right (by norm_num) hn)
  rw [BitVec.sshiftRight_eq_of_msb_false hmsb, BitVec.toNat_setWidth, BitVec.toNat_and,
    BitVec.toNat_ushiftRight, BitVec.toNat_ofNat, Nat.mod_eq_of_lt (b := 2 ^ 32) (by omega),
    Nat.and_two_pow_sub_one_eq_mod, Nat.shiftRight_eq_div_pow, Nat.mod_eq_of_lt hmod]

/-! ### A group of the encoder -/

/-- The number a group of bytes stands for: three digits in base 256. -/
def groupValue (g : List CChar) : ℕ := leading 256 3 (g.map BitVec.toNat)

/-- The characters of a group that carry bits of it. -/
def sextetChars (g : List CChar) : List CChar :=
  (List.range (g.length + 1)).map fun i => base.getD (digit 64 4 (groupValue g) i) 0

/-- The four characters a group of bytes becomes. -/
def encodeGroup (g : List CChar) : List CChar :=
  [0, 1, 2, 3].map fun i =>
    if g.length < i then ascii '=' else base.getD (digit 64 4 (groupValue g) i) 0

variable {g : List CChar}

lemma groupValue_lt : groupValue g < 2 ^ 24 := by
  refine leading_lt ?_ (by norm_num)
  simp only [List.mem_map]
  rintro d ⟨c, -, rfl⟩
  exact c.isLt

/-- Where a group ends, its number ends in zeros. -/
lemma pow_dvd_groupValue (hlen : g.length ≤ 3) : 64 ^ (3 - g.length) ∣ groupValue g := by
  have hmul := foldl_mul_pow (r := 256)
    (show (g.map BitVec.toNat).length ≤ 3 by simpa using hlen) 0
  rw [zero_mul, zero_add, List.length_map] at hmul
  rw [groupValue, ← hmul]
  exact (pow_dvd_pow_of_dvd (by norm_num : 64 ∣ 256) _).trans (Nat.dvd_mul_left _ _)

lemma encodeShift_toNat (p : BitVec 32) (c : CChar) (hp : p.toNat * 256 < 2 ^ 24) :
    (encodeShift p c).toNat = p.toNat * 256 + c.toNat := by
  have hc : c.signExtend 32 &&& 0xFF = c.setWidth 32 := by
    revert c
    decide
  have hlt : (c.setWidth 32).toNat = c.toNat := by
    rw [BitVec.toNat_setWidth, Nat.mod_eq_of_lt (by have := c.isLt; omega)]
  rw [encodeShift, hc, shiftLeft_or_toNat hp (hlt ▸ c.isLt), hlt]
  norm_num

/-- What the encoder holds of a group when it begins to write. -/
lemma encode_gathered (hlen : g.length ≤ 3) :
    (g.foldl encodeShift 0 <<< ((3 - g.length) * 8)).toNat = groupValue g :=
  gathered_toNat (by norm_num) (by norm_num) (fun p c hp _ => encodeShift_toNat p c hp)
    (fun c _ => c.isLt) hlen

/-- The places of `base`. -/
lemma base_getElem? {i : ℕ} (hi : i ≤ 64) : base[i]? = some (base.getD i 0) := by
  have hlt : i < base.length := Nat.lt_of_le_of_lt hi (by decide)
  rw [List.getD_eq_getElem?_getD, List.getElem?_eq_getElem hlt]
  rfl

lemma changed_toNat {prepare : BitVec 32} {temp i : ℕ} (hp : prepare.toNat < 2 ^ 24)
    (hi : i ≤ temp) : (changed temp prepare i).toNat = digit 64 4 prepare.toNat i := by
  have hpow : (2 : ℕ) ^ ((3 - i) * 6) = 64 ^ (3 - i) := by
    rw [mul_comm, pow_mul]
    norm_num
  rw [changed, if_neg (by omega), digit, ← hpow]
  exact sshiftRight_and_toNat (n := 6) hp (by norm_num)

/-- **The encoder writes a group.** -/
lemma encodeEmit_writes : Writes 3 encodeShift encodeEmit encodeGroup := by
  intro g hlen done k hroom
  have hvalue := encode_gathered hlen
  refine Cursor.foldlM_put (fun i hi => ?_) hroom
  have hi' : i ≤ 3 := by
    revert i
    decide
  by_cases hpad : g.length < i
  · rw [if_pos hpad, changed, if_pos hpad]
    rfl
  · have hlt : digit 64 4 (groupValue g) i < 64 := digit_lt (by norm_num)
    rw [if_neg hpad, changed_toNat (hvalue ▸ groupValue_lt) (by omega), hvalue,
      base_getElem? hlt.le]

/-! ### A group of the decoder -/

/-- The bytes a group of characters becomes. -/
def decodeGroup (junk : CChar) (g : List CChar) : List CChar :=
  ([0, 1, 2].takeWhile (· ≠ g.length)).map
    (decodedByte (g.foldl (decodeShift junk) 0 <<< ((4 - g.length) * 6)))

/-- **The decoder writes a group.** -/
lemma decodeEmit_writes (junk : CChar) :
    Writes 4 (decodeShift junk) decodeEmit (decodeGroup junk) := by
  intro g _ done k hroom
  rw [decodeGroup, List.length_map] at *
  exact Cursor.foldlM_put (fun i _ => rfl) hroom

lemma strrchr_of_notMem {s : List CChar} {c : CChar} (hc : c ∉ s) : strrchr s c = none := by
  induction s with
  | nil => rfl
  | cons d s ih =>
      rw [List.mem_cons, not_or] at hc
      rw [strrchr, ih hc.2, if_neg (Ne.symm hc.1)]

/-- In a text without repetitions, the last occurrence is the only one. -/
lemma strrchr_of_nodup {s : List CChar} {c : CChar} (hs : s.Nodup) (hc : c ∈ s) :
    strrchr s c = some (s.idxOf c) := by
  induction s with
  | nil => cases hc
  | cons d s ih =>
      obtain ⟨hd, hs⟩ := List.nodup_cons.mp hs
      rcases eq_or_ne d c with rfl | hne
      · rw [strrchr, strrchr_of_notMem hd, if_pos rfl, List.idxOf_cons_self]
      · rw [strrchr, ih hs ((List.mem_cons.mp hc).resolve_left hne.symm),
          List.idxOf_cons_ne _ hne]

/-- `find_pos` undoes the lookup in `base`. -/
lemma findPos_base (junk : CChar) {i : ℕ} (hi : i < 64) :
    (findPos junk (base.getD i 0)).toNat = i := by
  have hnodup : base.Nodup := by decide +kernel
  have hlt : i < base.length := hi.trans (by decide)
  rw [List.getD_eq_getElem?_getD, List.getElem?_eq_getElem hlt, Option.getD_some, findPos,
    strrchr_of_nodup hnodup (List.getElem_mem hlt), hnodup.idxOf_getElem, Option.elim_some,
    BitVec.toNat_ofNat, Nat.mod_eq_of_lt (by omega)]

lemma decodeShift_toNat (junk : CChar) (p : BitVec 32) (c : CChar) (hp : p.toNat * 64 < 2 ^ 24)
    (hc : (findPos junk c).toNat < 64) :
    (decodeShift junk p c).toNat = p.toNat * 64 + (findPos junk c).toNat := by
  rw [decodeShift]
  generalize findPos junk c = d at *
  have hmsb : d.msb = false := by
    rw [BitVec.msb_eq_false_iff_two_mul_lt]
    omega
  have hd : (d.signExtend 32).toNat = d.toNat := by
    rw [BitVec.signExtend_eq_setWidth_of_msb_false hmsb, BitVec.toNat_setWidth,
      Nat.mod_eq_of_lt (by omega)]
  rw [shiftLeft_or_toNat hp (hd ▸ hc), hd]
  norm_num

/-- What the decoder holds of a group when it begins to write. -/
lemma decode_gathered (junk : CChar) (hlen : g.length ≤ 4)
    (hval : ∀ c ∈ g, (findPos junk c).toNat < 64) :
    (g.foldl (decodeShift junk) 0 <<< ((4 - g.length) * 6)).toNat
      = leading 64 4 (g.map fun c => (findPos junk c).toNat) :=
  gathered_toNat (by norm_num) (by norm_num)
    (fun p c hp hc => decodeShift_toNat junk p c hp hc) hval hlen

lemma decodedByte_toNat {prepare : BitVec 32} {i : ℕ} (hp : prepare.toNat < 2 ^ 24) :
    (decodedByte prepare i).toNat = digit 256 3 prepare.toNat i := by
  have hpow : (2 : ℕ) ^ ((2 - i) * 8) = 256 ^ (3 - 1 - i) := by
    rw [mul_comm, pow_mul]
    norm_num
  rw [decodedByte, digit, ← hpow]
  exact sshiftRight_and_toNat (n := 8) hp (by norm_num)

/-! ### A group there and back -/

/-- The places of a group that are written: those it fills and the next one. -/
lemma map_getD_takeWhile (hpos : 0 < g.length) (hlen : g.length ≤ 3) :
    ([0, 1, 2].takeWhile (· ≠ g.length + 1)).map (fun i => g.getD i 0)
      = g ++ List.replicate (if g.length = 3 then 0 else 1) 0 := by
  match g, hpos, hlen with
  | [a], _, _ => rfl
  | [a, b], _, _ => rfl
  | [a, b, c], _, _ => rfl

/-- **The decoder undoes the encoder on a group**: it gives back the bytes, and a zero behind them
if the group is not full. -/
theorem decodeGroup_sextetChars (junk : CChar) (hne : g ≠ []) (hlen : g.length ≤ 3) :
    decodeGroup junk (sextetChars g)
      = g ++ List.replicate (if g.length = 3 then 0 else 1) 0 := by
  have hlen' : (sextetChars g).length = g.length + 1 := by
    rw [sextetChars, List.length_map, List.length_range]
  have hpos : 0 < g.length := List.length_pos_iff.mpr hne
  have hplaces : (sextetChars g).map (fun c => (findPos junk c).toNat)
      = (List.range (g.length + 1)).map (digit 64 4 (groupValue g)) := by
    rw [sextetChars, List.map_map]
    exact List.map_congr_left fun i _ => findPos_base junk (digit_lt (by norm_num))
  have hval : ∀ c ∈ sextetChars g, (findPos junk c).toNat < 64 := by
    intro c hc
    obtain ⟨i, -, rfl⟩ := List.mem_map.mp hc
    rw [findPos_base junk (digit_lt (by norm_num))]
    exact digit_lt (by norm_num)
  have hvalue : ((sextetChars g).foldl (decodeShift junk) 0
      <<< ((4 - (sextetChars g).length) * 6)).toNat = groupValue g := by
    rw [decode_gathered junk (by omega) hval, hplaces]
    refine leading_map_digit (by norm_num) (by omega) groupValue_lt ?_
    exact (show 4 - (g.length + 1) = 3 - g.length by omega) ▸ pow_dvd_groupValue hlen
  have hbyte : ∀ i < 3, decodedByte ((sextetChars g).foldl (decodeShift junk) 0
      <<< ((4 - (sextetChars g).length) * 6)) i = g.getD i 0 := by
    intro i hi
    refine BitVec.eq_of_toNat_eq ?_
    rw [decodedByte_toNat (hvalue ▸ groupValue_lt), hvalue, groupValue,
      digit_leading (by simpa using fun c _ => c.isLt) (by simpa using hlen) hi]
    simp only [List.getD_eq_getElem?_getD, List.getElem?_map]
    cases g[i]? <;> rfl
  rw [decodeGroup, ← map_getD_takeWhile hpos hlen, ← hlen']
  refine List.map_congr_left fun i hi => hbyte i ?_
  have := (List.takeWhile_subset _ hi : i ∈ [0, 1, 2])
  simp at this
  omega

end Wgs
