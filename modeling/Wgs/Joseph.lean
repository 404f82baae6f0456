import Wgs.Foundation.MachineInt
import Wgs.Foundation.Loops
import Wgs.Foundation.Rings

/-!
`C/yueshefuhuan.c` and `C/huawei/yueshefuhuan.c`: the people in a circle, each with a password.

`Joseph` counts from the node behind `p` on, unlinks the node it comes to, prints and releases it,
and calls itself with what the node holds as the next number to count.  The two files have one text,
but for the name of the field: `keyword` in the one, `data` in the other.

`josephOrder` is the same process on a list: rotate, and take the first (`joseph_follows`).
-/

namespace Wgs.Joseph

open Foundation

/-! ### The program -/

/-- `LNode`: the keyword, an `int`, and `next`. -/
abbrev Node := SingleNode ℤ

/-- `for (i = 1; i <= m; i++){ p = q; q = p->next; }`, from some `i` on. -/
def walk (mem : Mem Node) (m : ℤ) : ℕ → ℤ × Ptr × Ptr → Option (ℤ × Ptr × Ptr) :=
  whileLoop
    (fun (i, _, _) => return i ≤ m)
    (fun _ (i, _, q) => do
      let p := q
      let q ← mem.read p SingleNode.next
      return (toInt32 (i + 1), p, q))

/-- `Joseph`: what it prints, the addresses it releases and the memory it leaves. -/
def joseph : ℕ → Ptr → ℤ → ℤ → Mem Node → Option (List ℤ × List ℕ × Mem Node)
  | 0, _, _, _, _ => none
  | fuel + 1, p, m, x, mem =>
      if x = 0 then some ([], [], mem)
      else do
        let q := p
        let m := m.tmod x
        let m := if m = 0 then x else m
        let (_, p, q) ← walk mem m fuel (1, p, q)
        let next ← mem.read q SingleNode.next
        let mem ← mem.modify p (SingleNode.setNext next)
        let i ← mem.read q SingleNode.data
        let mem ← mem.free q
        let (printed, freed, mem) ← joseph fuel p i (x - 1) mem
        return (i :: printed, q.toList ++ freed, mem)

/-! ### The process on a list -/

/-- The members of a list of `x` in the order in which they are removed: the one that counting `m`
comes to, and then those of the list that begins behind it, counting what it holds.  Counting goes
around the list, and counting 0 is a full turn. -/
def josephOrder : ℕ → ℕ → List (ℕ × ℤ) → List (ℕ × ℤ)
  | 0, _, _ => []
  | x + 1, m, L =>
      match L.rotate (m + x) with
      | [] => []
      | c :: rest => c :: josephOrder x c.2.toNat rest

/-- Every member is removed once. -/
lemma josephOrder_perm {x m : ℕ} {L : List (ℕ × ℤ)} (hL : L.length = x) :
    (josephOrder x m L).Perm L := by
  induction x generalizing m L with
  | zero => rw [List.length_eq_zero_iff.mp hL, josephOrder]
  | succ x ih =>
      have hperm := L.rotate_perm (m + x)
      rw [josephOrder]
      cases hrot : L.rotate (m + x) with
      | nil =>
          rw [hrot] at hperm
          obtain rfl : [] = L := hperm.nil_eq
          cases hL
      | cons c rest =>
          rw [hrot] at hperm
          have hlen : rest.length = x := by
            have := hperm.length_eq
            rw [List.length_cons] at this
            omega
          exact ((ih hlen).cons c).trans hperm

variable {L : List (ℕ × ℤ)} {mem : Mem Node} {m : ℤ} {p : Ptr}

/-! ### The walk -/

/-- **The walk** comes to the first of the circle that begins `m - 1` nodes later, and trails the
last of it. -/
lemma walk_ends (hring : mem.Ring L) (hL : L ≠ []) (hm : 1 ≤ m) (hfits : m < 2147483647) :
    Ends (fun fuel => walk mem m fuel (1, p, lastOf none L)) fun r =>
      r.2.1 = lastOf none (L.rotate (m - 1).toNat)
        ∧ r.2.2 = firstOf none (L.rotate (m - 1).toNat) := by
  refine Ends.whileLoop
    (I := fun r : ℤ × Ptr × Ptr => ∃ k : ℕ, r.1 = (k : ℤ) + 1 ∧ (k : ℤ) ≤ m
      ∧ r.2.2 = lastOf none (L.rotate k) ∧ (1 ≤ k → r.2.1 = lastOf none (L.rotate (k - 1))))
    (fun r => (m + 1 - r.1).toNat) (fun r hr => ?_)
    ⟨0, by simp, by push_cast; omega, by rw [List.rotate_zero], fun h => by omega⟩
  obtain ⟨i, p, q⟩ := r
  obtain ⟨k, hi, hk, hq, hp⟩ := hr
  dsimp only at hi hq hp ⊢
  have hne : L.rotate k ≠ [] := mt List.rotate_eq_nil_iff.mp hL
  by_cases him : i ≤ m
  · have hread : mem.read q SingleNode.next = some (lastOf none (L.rotate (k + 1))) := by
      rw [hq, (hring.rotate k).read_last hne, lastOf_rotate_succ hL]
    have hnext : toInt32 (i + 1) = i + 1 := toInt32_of_isInt32 ⟨by omega, by omega⟩
    refine Or.inl ⟨by simp [him], ?_⟩
    simp only [hread, hnext, Option.bind_eq_bind, Option.bind_some]
    refine .of_eq (fun _ => rfl) ⟨⟨k + 1, ?_, ?_, rfl, fun _ => ?_⟩, ?_⟩
    · push_cast
      omega
    · push_cast
      omega
    · rw [Nat.add_sub_cancel]
      exact hq
    · dsimp only
      omega
  · have hkm : k - 1 = (m - 1).toNat := by omega
    have hsucc : k = k - 1 + 1 := by omega
    refine Or.inr ⟨by simp [him], ?_, ?_⟩
    · rw [hp (by omega), hkm]
    · rw [hq, hsucc, lastOf_rotate_succ hL, ← hkm]

/-! ### The removals -/

/-- What one call leaves to the next: the first of a circle is unlinked and released, with `p` the
last node of the rest. -/
lemma remove_first {a : ℕ} {v : ℤ} (hring : mem.Ring ((a, v) :: L)) :
    ∃ next mem₁ mem₂, mem.read (some a) SingleNode.next = some next
      ∧ mem.modify (lastOf (some a) L) (SingleNode.setNext next) = some mem₁
      ∧ mem₁.read (some a) SingleNode.data = some v ∧ mem₁.free (some a) = some mem₂
      ∧ mem₂.Ring L ∧ mem₂ a = none
      ∧ ∀ b ∉ ((a, v) :: L).map Prod.fst, mem₂ b = mem b := by
  obtain ⟨hnew, -⟩ := List.nodup_cons.mp hring.nodup
  obtain ⟨n, mem₁, ha, -, -, hmodify, hring₁, ⟨n', ha₁, hdata⟩, -⟩ := hring.unlink
  refine ⟨_, mem₁, _, Mem.read_eq ha _, hmodify, ?_, Mem.free_eq ha₁, ?_,
    Function.update_self _ _ _, fun b hb => ?_⟩
  · rw [Mem.read_eq ha₁, hdata]
  · exact hring₁.frame fun b hb => Function.update_of_ne (ne_of_mem_of_not_mem hb hnew) _ _
  · rw [List.map_cons, List.mem_cons, not_or] at hb
    rw [Function.update_of_ne hb.1]
    refine Mem.modify_of_ne hmodify fun heq => ?_
    rw [lastOf_eq_getLast?] at heq
    exact (List.mem_cons.mp (List.mem_of_getLast? heq.symm)).elim hb.1 hb.2

/-- The number of steps: one at least, and no more than there are nodes. -/
lemma steps_spec {x : ℕ} (hm : 0 ≤ m) :
    ∃ k : ℤ, (if m.tmod (x + 1 : ℕ) = 0 then ((x + 1 : ℕ) : ℤ) else m.tmod (x + 1 : ℕ)) = k
      ∧ 1 ≤ k ∧ k ≤ x + 1 ∧ (k = x + 1 → ((x + 1 : ℕ) : ℤ) ∣ m)
      ∧ (k - 1).toNat = (m.toNat + x) % (x + 1) := by
  obtain ⟨n, rfl⟩ := Int.eq_ofNat_of_zero_le hm
  rw [Int.tmod_eq_emod_of_nonneg hm, ← Int.natCast_mod, Int.toNat_natCast, Nat.add_mod,
    Nat.mod_eq_of_lt (show x < x + 1 by omega)]
  have hlt : n % (x + 1) < x + 1 := Nat.mod_lt _ (by omega)
  have hdvd : n % (x + 1) = 0 → ((x + 1 : ℕ) : ℤ) ∣ n :=
    fun h => Int.natCast_dvd_natCast.mpr (Nat.dvd_of_mod_eq_zero h)
  generalize n % (x + 1) = r at *
  refine ⟨_, rfl, ?_⟩
  split_ifs with hzero
  · obtain rfl : r = 0 := by exact_mod_cast hzero
    rw [zero_add, Nat.mod_eq_of_lt (by omega)]
    exact ⟨by omega, by omega, fun _ => hdvd rfl, by omega⟩
  · have hpos : r ≠ 0 := fun h => hzero (by exact_mod_cast h)
    have hsum : r + x = r - 1 + (x + 1) := by omega
    rw [hsum, Nat.add_mod_right, Nat.mod_eq_of_lt (by omega)]
    exact ⟨by omega, by omega, fun h => by omega, by omega⟩

/-- **One call after the other**: what is printed and released is the order of the process on the
list, and all nodes are released. -/
lemma joseph_ends (x : ℕ) (hlen : L.length = x) (hring : mem.Ring L)
    (hp : L ≠ [] → p = lastOf none L) (hm : 0 ≤ m) (hkeys : ∀ c ∈ L, 0 ≤ c.2)
    (hfits : x ≤ 2147483647) (hmax : x = 2147483647 → ¬ (x : ℤ) ∣ m) :
    Ends (fun fuel => joseph fuel p m x mem) fun r =>
      r.1 = (josephOrder x m.toNat L).map Prod.snd ∧ r.2.1 = (josephOrder x m.toNat L).map Prod.fst
        ∧ (∀ b ∈ L.map Prod.fst, r.2.2 b = none) ∧ ∀ b ∉ L.map Prod.fst, r.2.2 b = mem b := by
  induction x generalizing L mem m p with
  | zero =>
      refine .of_succ (.of_eq (r := ([], [], mem)) (fun fuel => ?_) ⟨rfl, rfl, ?_, fun _ _ => rfl⟩)
      · simp [joseph]
      · simp [List.length_eq_zero_iff.mp hlen]
  | succ x ih =>
      have hL : L ≠ [] := by
        rintro rfl
        cases hlen
      obtain ⟨k, hsteps, hk, hkx, hkmax, hmod⟩ := steps_spec (x := x) hm
      have hrot : L.rotate (k - 1).toNat = L.rotate (m.toNat + x) := by
        rw [hmod, ← hlen, List.rotate_mod]
      have hperm := L.rotate_perm (m.toNat + x)
      refine .of_succ ?_
      simp only [joseph, show ¬ ((x + 1 : ℕ) : ℤ) = 0 by omega, if_false, hsteps, hp hL]
      refine (walk_ends hring hL hk (by omega)).bind fun r hr => ?_
      obtain ⟨i, p', q⟩ := r
      obtain ⟨rfl, rfl⟩ := hr
      have hring' := hring.rotate (m.toNat + x)
      dsimp only
      rw [josephOrder, hrot]
      cases hc : L.rotate (m.toNat + x) with
      | nil => exact absurd (List.rotate_eq_nil_iff.mp hc) hL
      | cons c rest =>
          obtain ⟨a, v⟩ := c
          rw [hc] at hperm hring'
          obtain ⟨next, mem₁, mem₂, hnext, hmodify, hdata, hfree, hring₂, hfreed, hkept⟩ :=
            remove_first hring'
          have hrest : rest.length = x := by
            have := hperm.length_eq
            rw [List.length_cons] at this
            omega
          have hmem : ∀ b, b ∈ L.map Prod.fst ↔ b = a ∨ b ∈ rest.map Prod.fst := by
            intro b
            rw [← (hperm.map Prod.fst).mem_iff, List.map_cons, List.mem_cons]
          have hkeys' : ∀ c ∈ (a, v) :: rest, 0 ≤ c.2 := fun c hc => hkeys c (hperm.mem_iff.mp hc)
          have hlast : rest ≠ [] → lastOf (some a) rest = lastOf none rest := by
            intro hne
            obtain ⟨d, rest, rfl⟩ := List.exists_cons_of_ne_nil hne
            rfl
          simp only [firstOf_cons, lastOf_cons, hnext, hmodify, hdata, hfree, Option.bind_eq_bind,
            Option.bind_some, show ((x + 1 : ℕ) : ℤ) - 1 = x by push_cast; ring]
          refine (ih hrest hring₂ hlast (hkeys' _ List.mem_cons_self)
            (fun c hc => hkeys' c (List.mem_cons_of_mem _ hc)) (by omega) (by omega)).bind
            fun r hr => .of_eq (fun _ => rfl) ?_
          obtain ⟨printed, freed, mem'⟩ := r
          obtain ⟨rfl, rfl, hnone, hrest'⟩ := hr
          refine ⟨rfl, rfl, fun b hb => ?_, fun b hb => ?_⟩
          · by_cases hb' : b ∈ rest.map Prod.fst
            · exact hnone b hb'
            · obtain rfl := ((hmem b).mp hb).resolve_right hb'
              exact (hrest' _ hb').trans hfreed
          · rw [hmem, not_or] at hb
            exact (hrest' b hb.2).trans (hkept b (by simpa using hb))

/-- **The passwords in a circle.**  For every ring of nodes with keywords that are not negative and
every number to begin with, as long as the ring has fewer nodes than the largest `int` or that is no
divisor of the number, `Joseph` returns.  It prints the keywords and releases the nodes in the order
of the process on the list, every one of them once. -/
theorem joseph_follows (hring : mem.Ring L) (hkeys : ∀ c ∈ L, 0 ≤ c.2) (hm : 0 ≤ m)
    (hfits : L.length ≤ 2147483647) (hmax : L.length = 2147483647 → ¬ (L.length : ℤ) ∣ m) :
    (josephOrder L.length m.toNat L).Perm L
      ∧ ∃ mem', Returns (fun fuel => joseph fuel (lastOf none L) m L.length mem)
          ((josephOrder L.length m.toNat L).map Prod.snd,
            (josephOrder L.length m.toNat L).map Prod.fst, mem')
        ∧ (∀ b ∈ L.map Prod.fst, mem' b = none) ∧ ∀ b ∉ L.map Prod.fst, mem' b = mem b := by
  obtain ⟨⟨printed, freed, mem'⟩, hreturns, rfl, rfl, hnone, hkept⟩ :=
    joseph_ends L.length rfl hring (fun _ => rfl) hm hkeys hfits hmax
  exact ⟨josephOrder_perm rfl, mem', hreturns, hnone, hkept⟩

/-- Three nodes with the keywords 2, 0 and 1, counting 4. -/
theorem joseph_follows_three :
    ∃ mem', Returns (fun fuel => joseph fuel (some 2) 4 3
      (Mem.ofCells (links [(0, 2), (1, 0), (2, 1)] (some 0)))) ([2, 1, 0], [0, 2, 1], mem') := by
  obtain ⟨-, mem', hreturns, -⟩ := joseph_follows (m := 4)
    (Mem.Ring.ofCells (L := [(0, (2 : ℤ)), (1, 0), (2, 1)]) (by decide)) (by decide) (by decide)
    (by decide) (by decide)
  exact ⟨mem', hreturns⟩

/-! ### The largest `int` -/

/-- The counter of the walk never gets past the largest `int`. -/
lemma walk_max {q : Ptr} {i : ℤ} {fuel : ℕ} (hi : IsInt32 i) :
    walk mem 2147483647 fuel (i, p, q) = none := by
  refine whileLoop_eq_none (I := fun r => IsInt32 r.1) (fun r hr => ?_)
    (fun fuel r r' _ hr' => ?_) hi fuel
  · simp [hr.2]
  · obtain ⟨q, -, hr'⟩ := Option.bind_eq_some_iff.mp hr'
    obtain rfl := Option.some_inj.mp hr'
    exact isInt32_toInt32 _

/-- Nodes with the keyword 0. -/
def zeros (n : ℕ) : List (ℕ × ℤ) := (List.range n).map fun a => (a, 0)

/-- The ring of these nodes. -/
def zeroRing (n : ℕ) : Mem Node := Mem.ofCells (links (zeros n) (firstOf none (zeros n)))

lemma zeroRing_ring (n : ℕ) : (zeroRing n).Ring (zeros n) := by
  refine .ofCells ?_
  rw [zeros, List.map_map]
  exact List.nodup_range.map fun a b h => h

/-- **A ring of 2147483647 nodes**: counting 0 is a full turn, of as many steps as the largest
`int`, and `Joseph` does not return. -/
theorem joseph_overflow :
    (zeroRing 2147483647).Ring (zeros 2147483647) ∧ (zeros 2147483647).length = 2147483647
      ∧ ∀ fuel, joseph fuel (lastOf none (zeros 2147483647)) 0 2147483647 (zeroRing 2147483647)
        = none := by
  refine ⟨zeroRing_ring _, by rw [zeros, List.length_map, List.length_range], fun fuel => ?_⟩
  generalize lastOf none (zeros 2147483647) = p
  generalize zeroRing 2147483647 = mem
  cases fuel with
  | zero => rfl
  | succ fuel =>
      have hwalk : walk mem 2147483647 fuel (1, p, p) = none := walk_max ⟨by decide, by decide⟩
      simp [joseph, hwalk]

end Wgs.Joseph
