import Wgs.Foundation.Bitmap
import Wgs.Foundation.Cells
import Wgs.Foundation.Runs
import Wgs.Ucos.Config

/-!
`uCOS-III/Source/os_prio.c`: the table of the priorities with a task that is ready.

`OSPrioTbl` has one bit for each priority, from the most significant bit of its first word on.  The
functions insert and remove one priority and find the highest one, which is the least number; an
access outside of the table is a fault.  Over a run of insertions and removals the table marks the
priorities inserted and not removed since, so the search finds the least of them, and runs past
the end of the table when there is none.
-/

namespace Wgs.Ucos

open Foundation

/-- Conversion to an `OS_PRIO`. -/
def toPrio (p : ℕ) : ℕ := p % 256

/-- `OSPrioTbl` -/
abbrev PrioTbl (cfg : Config) := Cells (BitVec cfg.wordBits)

variable (cfg : Config)

/-- `OS_PrioInit` -/
def osPrioInit : PrioTbl cfg := List.replicate cfg.prioTblSize (BitVec.ofNat cfg.wordBits 0)

/-- The loop of `OS_PrioGetHighest`: `prio` and the words from `p_tbl` on. -/
def prioScan : ℕ → PrioTbl cfg → Option ℕ
  | _, [] => none
  | prio, x :: p_tbl =>
      if x = 0 then prioScan (toPrio (prio + cfg.wordBits)) p_tbl
      else some (toPrio (prio + toPrio (cfg.cntLeadZeros x)))

/-- `OS_PrioGetHighest` -/
def osPrioGetHighest (osPrioTbl : PrioTbl cfg) : Option ℕ := prioScan cfg 0 osPrioTbl

/-- `bit` of `OS_PrioInsert` and of `OS_PrioRemove`. -/
def prioBit (prio : ℕ) : BitVec cfg.wordBits :=
  let bitNbr := prio &&& (cfg.wordBits - 1)
  BitVec.ofNat cfg.wordBits 1 <<< (cfg.wordBits - 1 - bitNbr)

/-- `OS_PrioInsert` -/
def osPrioInsert (prio : ℕ) (osPrioTbl : PrioTbl cfg) : Option (PrioTbl cfg) := do
  let ix : ℕ := prio / cfg.wordBits
  let x ← osPrioTbl.load ix
  osPrioTbl.store ix (x ||| prioBit cfg prio)

/-- `OS_PrioRemove` -/
def osPrioRemove (prio : ℕ) (osPrioTbl : PrioTbl cfg) : Option (PrioTbl cfg) := do
  let ix : ℕ := prio / cfg.wordBits
  let x ← osPrioTbl.load ix
  osPrioTbl.store ix (x &&& ~~~prioBit cfg prio)

/-- One call of the table. -/
inductive PrioCall where
  | insert (prio : ℕ)
  | remove (prio : ℕ)
  deriving DecidableEq

namespace PrioCall

/-- The priority of a call. -/
def prio : PrioCall → ℕ
  | insert prio => prio
  | remove prio => prio

/-- A call is made. -/
def run : PrioCall → PrioTbl cfg → Option (PrioTbl cfg)
  | insert prio => osPrioInsert cfg prio
  | remove prio => osPrioRemove cfg prio

/-- What a call makes of a set of priorities. -/
def apply : PrioCall → Set ℕ → Set ℕ
  | insert prio, S => S ∪ {prio}
  | remove prio, S => S \ {prio}

end PrioCall

/-- The priorities that are inserted and not removed by a run of calls. -/
def inserted (calls : List PrioCall) : Set ℕ := calls.foldl (fun S c => c.apply S) ∅

variable {cfg}

/-! ### The table marks the priorities -/

/-- The table has its size, and it marks the priorities of `S`. -/
structure IsPrioTbl (osPrioTbl : PrioTbl cfg) (S : Set ℕ) : Prop where
  length : osPrioTbl.length = cfg.prioTblSize
  marks : Marks osPrioTbl S
  lt : ∀ p ∈ S, p < cfg.prioMax

lemma prioBit_eq (p : ℕ) : prioBit cfg p = msbMask cfg.wordBits (p % cfg.wordBits) := by
  rw [prioBit, cfg.and_wordBits_sub_one, msbMask]

namespace IsPrioTbl

variable {tbl : PrioTbl cfg} {S : Set ℕ} {p : ℕ}

lemma init : IsPrioTbl (osPrioInit cfg) ∅ where
  length := List.length_replicate
  marks := .empty _
  lt := by simp

/-- The word of a priority is read, and it can be written. -/
private lemma load_store (h : IsPrioTbl tbl S) (hp : p < cfg.prioMax) :
    p < tbl.length * cfg.wordBits ∧ ∃ x, tbl[p / cfg.wordBits]? = some x
      ∧ tbl.load (p / cfg.wordBits : ℕ) = some x
      ∧ ∀ y, tbl.store (p / cfg.wordBits : ℕ) y = some (tbl.set (p / cfg.wordBits) y) := by
  have hlt : p < tbl.length * cfg.wordBits := by
    rw [h.length]
    exact cfg.lt_prioTblSize_mul hp
  obtain ⟨x, hx⟩ := Marks.exists_word hlt
  have hword : p / cfg.wordBits < tbl.length := (List.getElem?_eq_some_iff.mp hx).1
  exact ⟨hlt, x, hx, by rw [Cells.load_natCast, hx], Cells.store_natCast hword⟩

/-- `OS_PrioInsert` marks one more priority. -/
lemma insert (h : IsPrioTbl tbl S) (hp : p < cfg.prioMax) :
    ∃ tbl', osPrioInsert cfg p tbl = some tbl' ∧ IsPrioTbl tbl' (S ∪ {p}) := by
  obtain ⟨hlt, x, hx, hload, hstore⟩ := h.load_store hp
  refine ⟨tbl.set (p / cfg.wordBits) (x ||| prioBit cfg p), ?_, ?_, ?_, ?_⟩
  · rw [osPrioInsert, hload, Option.bind_eq_bind, Option.bind_some, hstore]
  · rw [List.length_set, h.length]
  · rw [prioBit_eq, Set.union_singleton]
    exact h.marks.mark hlt hx
  · rintro q (hq | rfl)
    · exact h.lt q hq
    · exact hp

/-- `OS_PrioRemove` marks it no more. -/
lemma remove (h : IsPrioTbl tbl S) (hp : p < cfg.prioMax) :
    ∃ tbl', osPrioRemove cfg p tbl = some tbl' ∧ IsPrioTbl tbl' (S \ {p}) := by
  obtain ⟨hlt, x, hx, hload, hstore⟩ := h.load_store hp
  refine ⟨tbl.set (p / cfg.wordBits) (x &&& ~~~prioBit cfg p), ?_, ?_, ?_, fun q hq => h.lt q hq.1⟩
  · rw [osPrioRemove, hload, Option.bind_eq_bind, Option.bind_some, hstore]
  · rw [List.length_set, h.length]
  · rw [prioBit_eq]
    exact h.marks.unmark hlt hx

end IsPrioTbl

/-! ### The highest priority -/

/-- The search skips the words that are zero. -/
lemma prioScan_eq {i : ℕ} (prio : ℕ) (tbl : PrioTbl cfg) {x : BitVec cfg.wordBits}
    (hx : tbl[i]? = some x) (hne : x ≠ 0) (hzero : ∀ k < i, ∀ y, tbl[k]? = some y → y = 0) :
    prioScan cfg (toPrio prio) tbl = some (toPrio (prio + (i * cfg.wordBits + x.clz.toNat))) := by
  induction i generalizing prio tbl with
  | zero =>
      obtain ⟨tbl, rfl⟩ : ∃ t, tbl = x :: t := by
        cases tbl with
        | nil => simp at hx
        | cons y t => exact ⟨t, by simpa using hx⟩
      rw [prioScan, if_neg hne, cfg.cntLeadZeros_eq]
      simp [toPrio]
  | succ i ih =>
      cases tbl with
      | nil => simp at hx
      | cons y t =>
          have hy : y = 0 := hzero 0 (Nat.succ_pos i) y rfl
          have hwrap : toPrio (toPrio prio + cfg.wordBits) = toPrio (prio + cfg.wordBits) := by
            simp [toPrio]
          have hrest := ih (prio + cfg.wordBits) t (by simpa using hx) fun k hk z hz =>
            hzero (k + 1) (by omega) z (by simpa using hz)
          rw [prioScan, if_pos hy, hwrap, hrest]
          congr 2
          ring

lemma prioScan_eq_none (prio : ℕ) {tbl : PrioTbl cfg} (hzero : ∀ y ∈ tbl, y = 0) :
    prioScan cfg prio tbl = none := by
  induction tbl generalizing prio with
  | nil => rfl
  | cons y t ih =>
      rw [prioScan, if_pos (hzero y List.mem_cons_self)]
      exact ih _ fun z hz => hzero z (List.mem_cons_of_mem y hz)

/-- **The highest priority is the least number marked**, and without one the search leaves the
table. -/
lemma IsPrioTbl.getHighest {tbl : PrioTbl cfg} {S : Set ℕ} (h : IsPrioTbl tbl S) :
    (∀ p, osPrioGetHighest cfg tbl = some p ↔ IsLeast S p)
      ∧ (osPrioGetHighest cfg tbl = none ↔ S = ∅) := by
  by_cases hall : ∀ y ∈ tbl, y = 0
  · have hnone : osPrioGetHighest cfg tbl = none := prioScan_eq_none 0 hall
    have hempty : S = ∅ := h.marks.eq_empty hall
    simp [hnone, hempty, IsLeast]
  · -- the first word that is not zero
    have hex : ∃ i : ℕ, ∃ x, tbl[i]? = some x ∧ x ≠ 0 := by
      push Not at hall
      obtain ⟨x, hx, hne⟩ := hall
      obtain ⟨i, hi⟩ := List.mem_iff_getElem?.mp hx
      exact ⟨i, x, hi, hne⟩
    classical
    obtain ⟨x, hx, hne⟩ := Nat.find_spec hex
    have hzero : ∀ k < Nat.find hex, ∀ y, tbl[k]? = some y → y = 0 := by
      intro k hk y hy
      by_contra hnot
      exact Nat.find_min hex hk ⟨y, hy, hnot⟩
    have hleast := h.marks.isLeast_of_first hx hne hzero
    have hlt := (h.lt _ hleast.1).trans_le cfg.prioMax_le
    have hsome : osPrioGetHighest cfg tbl = some (Nat.find hex * cfg.wordBits + x.clz.toNat) := by
      have hscan := prioScan_eq 0 tbl hx hne hzero
      rw [Nat.zero_add, toPrio, toPrio, Nat.zero_mod, Nat.mod_eq_of_lt hlt] at hscan
      exact hscan
    have hSne : S ≠ ∅ := fun heq => by simp [heq, IsLeast] at hleast
    refine ⟨fun p => ?_, by simp [hsome, hSne]⟩
    rw [hsome, Option.some_inj]
    exact ⟨fun heq => heq ▸ hleast, fun hp => hleast.unique hp⟩

/-! ### Runs -/

lemma PrioCall.run_spec {c : PrioCall} {tbl : PrioTbl cfg} {S : Set ℕ} (h : IsPrioTbl tbl S)
    (hc : c.prio < cfg.prioMax) :
    ∃ tbl', c.run cfg tbl = some tbl' ∧ IsPrioTbl tbl' (c.apply S) := by
  cases c with
  | insert p => exact h.insert hc
  | remove p => exact h.remove hc

/-- **Over every run**, the table marks the priorities inserted and not removed. -/
lemma isPrioTbl_of_run {calls : List PrioCall} (hcalls : ∀ c ∈ calls, c.prio < cfg.prioMax) :
    ∃ tbl, calls.foldlM (fun t c => PrioCall.run cfg c t) (osPrioInit cfg) = some tbl
      ∧ IsPrioTbl tbl (inserted calls) := by
  induction calls using List.reverseRecOn with
  | nil => exact ⟨_, rfl, .init⟩
  | append_singleton calls c ih =>
      obtain ⟨tbl, hrun, htbl⟩ := ih fun d hd => hcalls d (by simp [hd])
      obtain ⟨tbl', hstep, htbl'⟩ := PrioCall.run_spec htbl (hcalls c (by simp))
      refine ⟨tbl', by simp [List.foldlM_append, hrun, hstep], ?_⟩
      rwa [inserted, List.foldl_append]

/-- **The priority table over every run.**  After any insertions and removals of priorities the
table has been accessed in bounds throughout, and `OS_PrioGetHighest` returns the least priority
inserted and not removed since; only without one it runs past the table. -/
theorem prioGetHighest_of_run (cfg : Config) (calls : List PrioCall)
    (hcalls : ∀ c ∈ calls, c.prio < cfg.prioMax) :
    ∃ tbl, calls.foldlM (fun t c => PrioCall.run cfg c t) (osPrioInit cfg) = some tbl
      ∧ (∀ p, osPrioGetHighest cfg tbl = some p ↔ IsLeast (inserted calls) p)
      ∧ (osPrioGetHighest cfg tbl = none ↔ inserted calls = ∅) := by
  obtain ⟨tbl, hrun, htbl⟩ := isPrioTbl_of_run hcalls
  exact ⟨tbl, hrun, htbl.getHighest⟩

/-- Two priorities are inserted and one is removed. -/
theorem prioGetHighest_of_run_three : ∃ tbl, [PrioCall.insert 5, .insert 20, .remove 5].foldlM
      (fun t c => PrioCall.run .template c t) (osPrioInit .template) = some tbl
    ∧ osPrioGetHighest .template tbl = some 20 := by
  obtain ⟨tbl, hrun, hhighest, -⟩ := prioGetHighest_of_run .template
    [.insert 5, .insert 20, .remove 5] (by decide)
  refine ⟨tbl, hrun, (hhighest 20).mpr ?_⟩
  simp [inserted, PrioCall.apply, IsLeast, lowerBounds]

end Wgs.Ucos
