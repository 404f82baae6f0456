import Wgs.Foundation.Probe

/-!
`C/hashchazhao.c`: a table of `Max` slots with open addressing.

`-1` marks an empty slot.  `search` and `creathash` run the same loop over the slots from
`func(key)` on, with different tests; an index outside of the table is a fault, which a negative
key would lead to.  A `search` for a key that is not there stops at an empty slot and returns
without a value, the parameter `junk`.

Every run of `creathash` on the empty table leaves no gap in front of a key (`hash_reachable`).  A
key that is not there is reported only by a full table (`search_absent_iff`).
-/

namespace Wgs.HashProbe

open Foundation

/-! ### The program -/

/-- `#define Max 11` -/
def slots : ℤ := 11

/-- `int hashtable[Max];` -/
abbrev HashTable := ℤ → ℤ

/-- `hashtable[t]` -/
def readSlot (hashtable : HashTable) (t : ℤ) : Option ℤ :=
  if 0 ≤ t ∧ t < slots then some (hashtable t) else none

/-- `func`. -/
def func (value : ℤ) : ℤ := value.tmod slots

/-- `search` stops unless `hashtable[t] != key && hashtable[t] != -1`. -/
def searchStop (key : ℤ) (hashtable : HashTable) (t : ℤ) : Option Bool :=
  (readSlot hashtable t).map fun v => decide (v = key ∨ v = -1)

/-- `creathash` stops unless `hashtable[t] != -1`. -/
def creathashStop (hashtable : HashTable) (t : ℤ) : Option Bool :=
  (readSlot hashtable t).map fun v => decide (v = -1)

/-- `search`. -/
def search (junk : ℤ) (fuel : ℕ) (key : ℤ) (hashtable : HashTable) : Option ℤ := do
  let pos := func key
  let found ← probe slots (searchStop key hashtable) pos fuel pos
  match found with
  | none => return -1
  | some t =>
      let v ← readSlot hashtable t
      if v = -1 then return junk else return t

/-- `creathash`. -/
def creathash (fuel : ℕ) (key : ℤ) (hashtable : HashTable) : Option HashTable := do
  let pos := func key
  let found ← probe slots (creathashStop hashtable) pos fuel pos
  match found with
  | none => return hashtable
  | some t => return Function.update hashtable t key

/-- What `main` prints about the number that it reads. -/
inductive Printed where
  | success (location : ℤ)
  | searchError
  | inputError
  deriving DecidableEq

/-- `main`, from `scanf` on. -/
def mainSearch (junk : ℤ) (fuel : ℕ) (t : ℤ) (hashtable : HashTable) : Option Printed :=
  if t > 0 ∧ t < 50 then do
    let i ← search junk fuel t hashtable
    if i ≠ -1 then return .success i else return .searchError
  else some .inputError

/-- `for (i = 0; i < Max; i++) hashtable[i] = -1;` -/
def emptyTable : HashTable := fun _ => -1

/-- One call of `creathash`: it returns, and leaves the table `hashtable'`. -/
def HashStep (hashtable : HashTable) (key : ℤ) (hashtable' : HashTable) : Prop :=
  Returns (fun fuel => creathash fuel key hashtable) hashtable'

/-! ### One call -/

/-- The slot `t` of the table is occupied. -/
def Occupied (hashtable : HashTable) (t : ℤ) : Prop := hashtable t ≠ -1

/-- Every slot is occupied. -/
def Full (hashtable : HashTable) : Prop := ∀ t, 0 ≤ t → t < slots → Occupied hashtable t

/-- The table keeps its keys reachable: every slot on the cyclic way from `func key` to the slot
that holds `key` is occupied. -/
def Reachable (hashtable : HashTable) : Prop := NoGap slots (-1) func hashtable

variable {junk key : ℤ} {hashtable hashtable' : HashTable} {keys : List ℤ} {t : ℤ}

lemma slots_pos : 0 < slots := by decide

lemma func_nonneg (hkey : 0 ≤ key) : 0 ≤ func key := by
  rw [func, Int.tmod_eq_emod_of_nonneg hkey]
  exact Int.emod_nonneg _ slots_pos.ne'

lemma func_lt (hkey : 0 ≤ key) : func key < slots := by
  rw [func, Int.tmod_eq_emod_of_nonneg hkey]
  exact Int.emod_lt_of_pos _ slots_pos

lemma readSlot_eq (h0 : 0 ≤ t) (hlt : t < slots) : readSlot hashtable t = some (hashtable t) :=
  if_pos ⟨h0, hlt⟩

lemma searchStop_eq (key : ℤ) (h0 : 0 ≤ t) (hlt : t < slots) :
    searchStop key hashtable t = some (decide (hashtable t = key ∨ hashtable t = -1)) := by
  rw [searchStop, readSlot_eq h0 hlt, Option.map_some]

lemma creathashStop_eq (h0 : 0 ≤ t) (hlt : t < slots) :
    creathashStop hashtable t = some (decide (hashtable t = -1)) := by
  rw [creathashStop, readSlot_eq h0 hlt, Option.map_some]

lemma reachable_emptyTable : Reachable emptyTable := by
  intro d k hk _ hheld
  exact absurd hheld.symm hk

/-- What `creathash` leaves: a full table as it was, another one with the key in the first empty
slot from `func key` on. -/
lemma creathash_spec (hashtable : HashTable) (hkey : 0 ≤ key) :
    ∃ hashtable', HashStep hashtable key hashtable' ∧ (Full hashtable ∧ hashtable' = hashtable
      ∨ ∃ d : ℕ, d < slots ∧ hashtable (slot slots (func key) d) = -1
        ∧ (∀ i < d, hashtable (slot slots (func key) i) ≠ -1)
        ∧ hashtable' = Function.update hashtable (slot slots (func key) d) key) := by
  obtain ⟨r, hprobe, hr⟩ := probe_spec (P := fun t => hashtable t = -1)
    (func_nonneg hkey) (func_lt hkey) fun t h0 hlt => creathashStop_eq h0 hlt
  cases r with
  | none =>
      refine ⟨hashtable, hprobe.map fun fuel hfuel => by simp [creathash, hfuel],
        Or.inl ⟨fun t h0 hlt => ?_, rfl⟩⟩
      obtain ⟨d, hd, rfl⟩ := exists_slot (func key) h0 hlt
      exact hr d hd
  | some t =>
      obtain ⟨d, hd, rfl, hvacant, hbefore⟩ := hr
      exact ⟨_, hprobe.map fun fuel hfuel => by simp [creathash, hfuel],
        Or.inr ⟨d, hd, hvacant, hbefore, rfl⟩⟩

/-- `search` returns, and finds every key there is. -/
lemma search_spec (junk : ℤ) (h : Reachable hashtable) (hkey : 0 ≤ key) :
    ∃ r, Returns (fun fuel => search junk fuel key hashtable) r
      ∧ ∀ t, 0 ≤ t → t < slots → hashtable t = key → 0 ≤ r ∧ r < slots ∧ hashtable r = key := by
  obtain ⟨r, hprobe, hr⟩ := probe_spec (P := fun t => hashtable t = key ∨ hashtable t = -1)
    (func_nonneg hkey) (func_lt hkey) fun t h0 hlt => searchStop_eq key h0 hlt
  have hne : key ≠ -1 := by omega
  cases r with
  | none =>
      refine ⟨-1, hprobe.map fun fuel hfuel => by simp [search, hfuel], fun t h0 hlt hheld => ?_⟩
      obtain ⟨t, ht, -⟩ := h.finds hne h0 hlt hheld hr
      cases ht
  | some t =>
      have h0 : 0 ≤ t := by
        obtain ⟨d, -, rfl, -⟩ := hr
        exact slot_nonneg slots_pos
      have hlt : t < slots := by
        obtain ⟨d, -, rfl, -⟩ := hr
        exact slot_lt slots_pos
      refine ⟨if hashtable t = -1 then junk else t, hprobe.map fun fuel hfuel => ?_,
        fun u hu0 hult hheld => ?_⟩
      · simp only [search, hfuel, readSlot_eq h0 hlt, Option.bind_eq_bind, Option.bind_some]
        split_ifs <;> rfl
      · obtain ⟨t', ht, -, -, hfound⟩ := h.finds hne hu0 hult hheld hr
        obtain rfl := Option.some_inj.mp ht
        rw [if_neg (by rw [hfound]; exact hne)]
        exact ⟨h0, hlt, hfound⟩

/-- A call of `creathash`, as the rest of a proof sees it. -/
lemma HashStep.cases (hkey : 0 ≤ key) (h : HashStep hashtable key hashtable') :
    Full hashtable ∧ hashtable' = hashtable
      ∨ ∃ d : ℕ, d < slots ∧ hashtable (slot slots (func key) d) = -1
        ∧ (∀ i < d, hashtable (slot slots (func key) i) ≠ -1)
        ∧ hashtable' = Function.update hashtable (slot slots (func key) d) key := by
  obtain ⟨hashtable'', hstep, hcases⟩ := creathash_spec hashtable hkey
  obtain rfl := h.unique hstep
  exact hcases

/-- No occupied slot is overwritten. -/
lemma HashStep.keeps (hkey : 0 ≤ key) (h : HashStep hashtable key hashtable')
    (ht : Occupied hashtable t) : hashtable' t = hashtable t := by
  rcases h.cases hkey with ⟨-, rfl⟩ | ⟨d, -, hvacant, -, rfl⟩
  · rfl
  · refine Function.update_of_ne ?_ _ _
    rintro rfl
    exact ht hvacant

lemma HashStep.reachable (hkey : 0 ≤ key) (hs : Reachable hashtable)
    (h : HashStep hashtable key hashtable') : Reachable hashtable' := by
  rcases h.cases hkey with ⟨-, rfl⟩ | ⟨d, hd, hvacant, hbefore, rfl⟩
  · exact hs
  · exact hs.insert hd rfl hbefore hvacant

/-- In a table that is not full, the key is stored. -/
lemma HashStep.stores (hkey : 0 ≤ key) (hfull : ¬ Full hashtable)
    (h : HashStep hashtable key hashtable') : ∃ t, 0 ≤ t ∧ t < slots ∧ hashtable' t = key := by
  rcases h.cases hkey with ⟨hfull', -⟩ | ⟨d, hd, -, -, rfl⟩
  · exact absurd hfull' hfull
  · exact ⟨_, slot_nonneg slots_pos, slot_lt slots_pos, Function.update_self _ _ _⟩

/-! ### Runs -/

lemma reachable_of_run (hkeys : ∀ key ∈ keys, 0 ≤ key)
    (h : Reaches HashStep emptyTable keys hashtable) : Reachable hashtable := by
  have halways : Always HashStep emptyTable Reachable keys :=
    .of_atEvery reachable_emptyTable (fun _ _ _ hs hkey hnext => hnext.reachable hkey hs)
      (.of_forall hkeys)
  exact halways keys List.prefix_rfl hashtable h

/-- Along a run no occupied slot changes. -/
lemma keeps_of_run (hkeys : ∀ key ∈ keys, 0 ≤ key) (h : Reaches HashStep hashtable keys hashtable')
    (ht : Occupied hashtable t) : hashtable' t = hashtable t := by
  have halways : Always HashStep hashtable (fun table => table t = hashtable t) keys :=
    .of_atEvery rfl (fun s key s' hs hkey hnext =>
      (hnext.keeps hkey (by rw [Occupied, hs]; exact ht)).trans hs) (.of_forall hkeys)
  exact halways keys List.prefix_rfl hashtable' h

/-- **The table keeps its keys reachable.**  After every run of calls with non-negative keys every
slot on the cyclic way from `func key` to the slot that holds `key` is occupied.  The next call
returns, overwrites no occupied slot and leaves a full table as it is; `search` returns for every
key, and for a key that was stored, when it was called for, it returns a slot that holds it. -/
theorem hash_reachable (hkeys : ∀ key ∈ keys, 0 ≤ key)
    (h : Reaches HashStep emptyTable keys hashtable) (junk : ℤ) :
    Reachable hashtable
      ∧ (∀ key, 0 ≤ key → ∃ hashtable', HashStep hashtable key hashtable'
        ∧ (∀ t, Occupied hashtable t → hashtable' t = hashtable t)
        ∧ (Full hashtable → hashtable' = hashtable))
      ∧ (∀ key, 0 ≤ key → ∃ r, Returns (fun fuel => search junk fuel key hashtable) r)
      ∧ ∀ js key, js ++ [key] <+: keys → ∀ before, Reaches HashStep emptyTable js before →
        ¬ Full before → ∃ r, Returns (fun fuel => search junk fuel key hashtable) r
          ∧ 0 ≤ r ∧ r < slots ∧ hashtable r = key := by
  have hreach := reachable_of_run hkeys h
  refine ⟨hreach, fun key hkey => ?_, fun key hkey => ?_,
    fun js key hpre before hbefore hfull => ?_⟩
  · obtain ⟨hashtable', hstep, hcases⟩ := creathash_spec hashtable hkey
    refine ⟨hashtable', hstep, fun t ht => hstep.keeps hkey ht, fun hfull => ?_⟩
    rcases hcases with ⟨-, heq⟩ | ⟨d, -, hvacant, -, -⟩
    · exact heq
    · exact absurd hvacant (hfull _ (slot_nonneg slots_pos) (slot_lt slots_pos))
  · obtain ⟨r, hr, -⟩ := search_spec junk hreach hkey
    exact ⟨r, hr⟩
  · obtain ⟨ks, rfl⟩ := hpre
    have hkey : 0 ≤ key := hkeys key (by simp)
    obtain ⟨after, hafter, hrest⟩ := Reaches.of_append _ h
    obtain ⟨before', hbefore', hstep⟩ := Reaches.snoc_iff.mp hafter
    obtain rfl := hbefore.unique (fun _ _ _ _ hnext hnext' => hnext.unique hnext') hbefore'
    obtain ⟨t, h0, hlt, hheld⟩ := hstep.stores hkey hfull
    have hstill : hashtable t = key := by
      rw [keeps_of_run (fun key hkey => hkeys key (by simp [hkey])) hrest
        (by rw [Occupied, hheld]; omega), hheld]
    obtain ⟨r, hr, hfinds⟩ := search_spec junk hreach hkey
    exact ⟨r, hr, hfinds t h0 hlt hstill⟩

/-- Two keys with the same home. -/
theorem hash_reachable_collision :
    ∃ hashtable, Reaches HashStep emptyTable [5, 16] hashtable
      ∧ ∃ r, Returns (fun fuel => search 0 fuel 16 hashtable) r ∧ hashtable r = 16 := by
  have hfirst : HashStep emptyTable 5 (Function.update emptyTable 5 5) := .of_add 1 fun _ => rfl
  have hnotFull : ¬ Full (Function.update emptyTable 5 5) :=
    fun hfull => hfull 0 (by decide) (by decide) (by decide)
  have hrun := Reaches.step .start hfirst
  obtain ⟨hashtable, hsecond, -⟩ :=
    (hash_reachable (by decide) hrun 0).2.1 16 (by decide)
  have hrun' := hrun.step hsecond
  obtain ⟨r, hr, -, -, hfound⟩ :=
    (hash_reachable (by decide) hrun' 0).2.2.2 [5] 16 List.prefix_rfl _ hrun hnotFull
  exact ⟨hashtable, hrun', r, hr, hfound⟩

/-! ### Keys that are not there -/

/-- Some slot holds the key. -/
def Stored (hashtable : HashTable) (key : ℤ) : Prop := ∃ t, 0 ≤ t ∧ t < slots ∧ hashtable t = key

/-- The table reports the key if it is not there: `search` returns `-1`, whatever it returns where
it returns without a value, and `main` prints `search error` for such keys alone. -/
def ReportsAbsence (hashtable : HashTable) (key : ℤ) : Prop :=
  (¬ Stored hashtable key → ∀ junk, Returns (fun fuel => search junk fuel key hashtable) (-1))
    ∧ ∀ junk, 0 < key → key < 50 →
      (Returns (fun fuel => mainSearch junk fuel key hashtable) .searchError
        ↔ ¬ Stored hashtable key)

/-- A search for a key that is not there: once around a full table, or up to an empty slot. -/
lemma search_absent (hkey : 0 ≤ key) (habsent : ¬ Stored hashtable key) :
    Full hashtable ∧ (∀ junk, Returns (fun fuel => search junk fuel key hashtable) (-1))
      ∨ ¬ Full hashtable ∧ ∀ junk, Returns (fun fuel => search junk fuel key hashtable) junk := by
  obtain ⟨r, hprobe, hr⟩ := probe_spec (P := fun t => hashtable t = key ∨ hashtable t = -1)
    (func_nonneg hkey) (func_lt hkey) fun t h0 hlt => searchStop_eq key h0 hlt
  cases r with
  | none =>
      refine Or.inl ⟨fun t h0 hlt hvacant => ?_,
        fun junk => hprobe.map fun fuel hfuel => by simp [search, hfuel]⟩
      obtain ⟨d, hd, rfl⟩ := exists_slot (func key) h0 hlt
      exact hr d hd (Or.inr hvacant)
  | some t =>
      obtain ⟨d, hd, rfl, hstop, -⟩ := hr
      have h0 : 0 ≤ slot slots (func key) d := slot_nonneg slots_pos
      have hlt : slot slots (func key) d < slots := slot_lt slots_pos
      have hvacant : hashtable (slot slots (func key) d) = -1 :=
        hstop.resolve_left fun hheld => habsent ⟨_, h0, hlt, hheld⟩
      refine Or.inr ⟨fun hfull => hfull _ h0 hlt hvacant,
        fun junk => hprobe.map fun fuel hfuel => ?_⟩
      simp [search, hfuel, readSlot_eq h0 hlt, hvacant]

/-- What `main` prints when `search` returns. -/
lemma mainSearch_returns {r : ℤ} (hpos : 0 < key) (hlt : key < 50)
    (hr : Returns (fun fuel => search junk fuel key hashtable) r) :
    Returns (fun fuel => mainSearch junk fuel key hashtable)
      (if r ≠ -1 then .success r else .searchError) := by
  refine hr.map fun fuel hsearch => ?_
  simp only [mainSearch, gt_iff_lt, hpos, hlt, and_self, if_true, hsearch, Option.bind_eq_bind,
    Option.bind_some]
  split_ifs <;> rfl

/-- **When a missing key is reported**: after every run of calls with non-negative keys, exactly by
a table that is full. -/
theorem search_absent_iff (hkeys : ∀ key ∈ keys, 0 ≤ key)
    (h : Reaches HashStep emptyTable keys hashtable) (hkey : 0 ≤ key) :
    ReportsAbsence hashtable key ↔ Full hashtable ∨ Stored hashtable key := by
  constructor
  · rintro ⟨hreports, -⟩
    by_cases hstored : Stored hashtable key
    · exact Or.inr hstored
    · refine Or.inl ?_
      rcases search_absent hkey hstored with ⟨hfull, -⟩ | ⟨-, hjunk⟩
      · exact hfull
      · have hzero := (hjunk 0).unique (hreports hstored 0)
        cases hzero
  · intro hcond
    by_cases hstored : Stored hashtable key
    · refine ⟨fun habsent => absurd hstored habsent, fun junk hpos hlt => ?_⟩
      obtain ⟨t, h0, hlt', hheld⟩ := hstored
      obtain ⟨r, hr, hfinds⟩ := search_spec junk (reachable_of_run hkeys h) hkey
      have hne : r ≠ -1 := by
        have := (hfinds t h0 hlt' hheld).1
        omega
      have hprinted := mainSearch_returns hpos hlt hr
      rw [if_pos hne] at hprinted
      refine iff_of_false (fun herror => ?_) (not_not.mpr ⟨t, h0, hlt', hheld⟩)
      cases hprinted.unique herror
    · have hfull := hcond.resolve_right hstored
      have hsearch : ∀ junk, Returns (fun fuel => search junk fuel key hashtable) (-1) := by
        rcases search_absent hkey hstored with ⟨-, hsearch⟩ | ⟨hnot, -⟩
        · exact hsearch
        · exact absurd hfull hnot
      exact ⟨fun _ => hsearch, fun junk hpos hlt =>
        iff_of_true (mainSearch_returns hpos hlt (hsearch junk)) hstored⟩

/-- A key whose home is empty is stored there. -/
lemma HashStep.home (hkey : 0 ≤ key) (hvacant : hashtable (func key) = -1) :
    HashStep hashtable key (Function.update hashtable (func key) key) := by
  refine Returns.of_add 1 fun fuel => ?_
  simp [creathash, probe, creathashStop_eq (func_nonneg hkey) (func_lt hkey), hvacant]

/-- The table of the keys below `n`, each in its home. -/
def firstKeys (n : ℕ) : HashTable := fun t => if 0 ≤ t ∧ t < n then t else -1

lemma firstKeys_run (n : ℕ) (hn : n ≤ 11) :
    Reaches HashStep emptyTable ((List.range n).map (↑)) (firstKeys n) := by
  induction n with
  | zero =>
      have hempty : firstKeys 0 = emptyTable := by
        funext t
        exact if_neg (by simp)
      exact hempty ▸ .start
  | succ n ih =>
      have hhome : func n = n := by
        rw [func, slots, Int.tmod_eq_emod_of_nonneg (by omega)]
        omega
      have hvacant : firstKeys n (func n) = -1 := by
        rw [hhome]
        exact if_neg (by simp)
      have hnext : Function.update (firstKeys n) (func n) n = firstKeys (n + 1) := by
        funext t
        by_cases ht : t = n
        · rw [hhome, ht, Function.update_self, firstKeys, if_pos ⟨by omega, by push_cast; omega⟩]
        · rw [hhome, Function.update_of_ne ht, firstKeys, firstKeys]
          congr 1
          rw [eq_iff_iff]
          push_cast
          omega
      rw [List.range_succ, List.map_append, ← hnext]
      exact .step (ih (by omega)) (.home (by omega) hvacant)

/-- A table of the keys from 0 to 10 is full, and reports 20. -/
theorem search_absent_iff_full :
    Reaches HashStep emptyTable ((List.range 11).map (↑)) (firstKeys 11)
      ∧ ¬ Stored (firstKeys 11) 20 ∧ ReportsAbsence (firstKeys 11) 20 := by
  have hrun := firstKeys_run 11 le_rfl
  have hheld : ∀ t, 0 ≤ t → t < slots → firstKeys 11 t = t := fun t h0 hlt => if_pos ⟨h0, hlt⟩
  refine ⟨hrun, ?_, (search_absent_iff (by decide) hrun (by decide)).mpr (Or.inl ?_)⟩
  · rintro ⟨t, h0, hlt, ht⟩
    rw [hheld t h0 hlt] at ht
    rw [slots] at hlt
    omega
  · intro t h0 hlt hvacant
    rw [hheld t h0 hlt] at hvacant
    omega

/-- **An empty slot**: in the empty table the search for 5 returns without a value, and where that
happens to be 7, `main` prints that 5 is at 7. -/
theorem search_absent_fails :
    Reaches HashStep emptyTable [] emptyTable ∧ ¬ Stored emptyTable 5
      ∧ Returns (fun fuel => search 7 fuel 5 emptyTable) 7
      ∧ Returns (fun fuel => mainSearch 7 fuel 5 emptyTable) (.success 7)
      ∧ ¬ ReportsAbsence emptyTable 5 := by
  have habsent : ¬ Stored emptyTable 5 := by
    rintro ⟨t, -, -, hheld⟩
    cases hheld
  have hsearch : Returns (fun fuel => search 7 fuel 5 emptyTable) 7 := .of_add 1 fun _ => rfl
  refine ⟨.start, habsent, hsearch, mainSearch_returns (by decide) (by decide) hsearch, ?_⟩
  rintro ⟨hreports, -⟩
  cases hsearch.unique (hreports habsent 7)

end Wgs.HashProbe
