import Wgs.Foundation.Loops
import Wgs.Foundation.MachineInt
import Wgs.Foundation.Merging
import Wgs.Foundation.SinglyLinked

/-!
`C/LinkList.c`: lists with a head node, their positions and their merge.

`C/huawei/LinkList.c` has the same `listinsert`, `listdel` and `MergeList`, and `C/LinkList2.c` the
same `listinsert` and `listdel`.  A position `i` is a number of steps along the list, `i - 1`, and
no function checks it:

* `listinsert` and `listdel` act on the place that so many steps lead to, the first one for an `i`
  that is not positive (`listinsert_ends`, `listdel_ends`), and follow `NULL` when the list is
  shorter (`listinsert_eq_none`, `listdel_eq_none`);
* `positions_iff`: they do what their names say at the positions of the list, and only there;
* `MergeList` takes the nodes of both lists in an order that it decides node by node, and attaches
  what is left at the end (`mergeList_merges`).
-/

namespace Wgs.LinkList

open Foundation

/-! ### The program -/

/-- `linklist`: `data`, an `int`, and `next`. -/
abbrev Node := SingleNode ℤ

/-- `OK`. -/
def ok : ℤ := 1

/-- `ERROR`. -/
def error : ℤ := 0

/-- `for (j = 0; j < n; ++j) q = q->next;`, from some `j` on. -/
def walk (m : Mem Node) (n : ℤ) : ℕ → Ptr × ℤ → Option (Ptr × ℤ) :=
  whileLoop
    (fun (_, j) => return j < n)
    (fun _ (q, j) => do return (← m.read q SingleNode.next, j + 1))

/-- `listinsert`: the status and the memory; the allocator answers `p`, a new node with `junk` in
its cell or `NULL`. -/
def listinsert (fuel : ℕ) (list : Ptr) (i e : ℤ) (p : Ptr) (junk : Node) (m : Mem Node) :
    Option (ℤ × Mem Node) := do
  let q := list
  let m ← m.tryMalloc p junk
  if p = none then return (error, m)
  let m ← m.modify p (SingleNode.setData e)
  let (q, _) ← walk m (toInt32 (i - 1)) fuel (q, 0)
  let m ← m.modify p (SingleNode.setNext (← m.read q SingleNode.next))
  let m ← m.modify q (SingleNode.setNext p)
  return (ok, m)

/-- `listdel`: the status, `*e` and the memory.  The node that it allocates first is not used; the
allocator answers `q`. -/
def listdel (fuel : ℕ) (list : Ptr) (i : ℤ) (q : Ptr) (junk : Node) (m : Mem Node) :
    Option (ℤ × ℤ × Mem Node) := do
  let m ← m.tryMalloc q junk
  let p := list
  let (p, _) ← walk m (toInt32 (i - 1)) fuel (p, 0)
  let q ← m.read p SingleNode.next
  let e ← m.read q SingleNode.data
  let m ← m.modify p (SingleNode.setNext (← m.read q SingleNode.next))
  let m ← m.modify q (SingleNode.setNext none)
  let m ← m.free q
  return (ok, e, m)

/-- `while (pa && pb)`, over the memory, `pa`, `pb` and `pc`. -/
def mergeLoop : ℕ → Mem Node × Ptr × Ptr × Ptr → Option (Mem Node × Ptr × Ptr × Ptr) :=
  whileLoop
    (fun (_, pa, pb, _) => return pa ≠ none ∧ pb ≠ none)
    (fun _ (m, pa, pb, pc) => do
      if (← m.read pa SingleNode.data) ≤ (← m.read pb SingleNode.data) then
        let m ← m.modify pc (SingleNode.setNext pa)
        let pc := pa
        let pa ← m.read pa SingleNode.next
        return (m, pa, pb, pc)
      else
        let m ← m.modify pc (SingleNode.setNext pb)
        let pc := pb
        let pb ← m.read pb SingleNode.next
        return (m, pa, pb, pc))

/-- `MergeList`: its result and the memory. -/
def mergeList (fuel : ℕ) (la lb : Ptr) (m : Mem Node) : Option (Ptr × Mem Node) := do
  let pa ← m.read la SingleNode.next
  let pb ← m.read lb SingleNode.next
  let lc := la
  let pc := la
  let (m, pa, pb, pc) ← mergeLoop fuel (m, pa, pb, pc)
  let m ← m.modify pc (SingleNode.setNext (if pa ≠ none then pa else pb))
  return (lc, m)

variable {a b c h : ℕ} {e i j n x y : ℤ} {m : Mem Node} {p q pa pb : Ptr} {junk : Node} {fuel : ℕ}
  {us vs xs A B L : List (ℕ × ℤ)}

/-! ### The walk to a position -/

/-- The walk along a list that is long enough. -/
lemma walk_ends (hnodes : m.Holds (links ((h, x) :: us ++ vs) q))
    (hlen : us.length = (n - j).toNat) :
    Ends (fun fuel => walk m n fuel (some h, j)) fun (p, _) => p = lastOf (some h) us := by
  induction us generalizing h x j with
  | nil =>
      rw [List.length_nil] at hlen
      exact Ends.whileLoop_false (by simpa using (show n ≤ j by omega)) rfl
  | cons c us ih =>
      obtain ⟨c, z⟩ := c
      rw [List.length_cons] at hlen
      have hh : m h = some ⟨x, some c⟩ := hnodes.head
      have htail : m.Holds (links ((c, z) :: us ++ vs) q) := (Mem.holds_cons.mp hnodes).2
      refine Ends.whileLoop_true (by simpa using (show j < n by omega)) ?_
      exact .of_eq (r := (some c, j + 1)) (fun _ => by simp [Mem.read_eq hh])
        (ih htail (by omega))

/-- A walk past the last node of a list ends at `NULL`, and a walk as long as the list at its last
node, if it ends at all. -/
lemma walk_past_end {r : Ptr × ℤ} (hnodes : m.Holds (links ((h, x) :: us) none))
    (hlen : us.length ≤ n - j) (hr : walk m n fuel (some h, j) = some r) :
    us.length < n - j ∧ r.1 = none
      ∨ us.length = n - j ∧ ∃ b y, r.1 = some b ∧ m b = some ⟨y, none⟩ := by
  -- what is left of the walk is longer than what is left of the list by the same number always
  refine loop_invariant (I := fun s => us.length < n - j ∧ s.1 = none ∨ ∃ b y vs, s.1 = some b
    ∧ m.Holds (links ((b, y) :: vs) none) ∧ n - s.2 - vs.length = n - j - us.length)
    (Q := fun r => us.length < n - j ∧ r.1 = none
      ∨ us.length = n - j ∧ ∃ b y, r.1 = some b ∧ m b = some ⟨y, none⟩)
    (fun fuel s c hs hc => ?_) (Or.inr ⟨h, x, us, rfl, hnodes, rfl⟩) hr
  obtain ⟨q, j'⟩ := s
  rcases hs with ⟨hlt, hq⟩ | ⟨b, y, vs, hq, hnodes, hleft⟩
  · obtain rfl : q = none := hq
    by_cases hj : j' < n
    · simp [hj, Mem.read, Mem.load] at hc
    · simp only [hj, decide_false, Option.pure_def, Option.bind_eq_bind, Option.bind_some,
        Bool.false_eq_true, if_false, Option.some_inj] at hc
      subst hc
      exact Or.inl ⟨hlt, rfl⟩
  · obtain rfl : q = some b := hq
    dsimp only at hleft
    have hb : m b = some ⟨y, firstOf none vs⟩ := hnodes.head
    by_cases hj : j' < n
    · simp only [hj, decide_true, Mem.read_eq hb, Option.pure_def, Option.bind_eq_bind,
        Option.bind_some, if_true, Option.some_inj] at hc
      subst hc
      cases vs with
      | nil =>
          rw [List.length_nil, Nat.cast_zero] at hleft
          exact Or.inl ⟨by omega, rfl⟩
      | cons c vs =>
          obtain ⟨c, z⟩ := c
          rw [List.length_cons] at hleft
          push_cast at hleft
          exact Or.inr ⟨c, z, vs, rfl, (Mem.holds_cons.mp hnodes).2, by dsimp only; omega⟩
    · simp only [hj, decide_false, Option.pure_def, Option.bind_eq_bind, Option.bind_some,
        Bool.false_eq_true, if_false, Option.some_inj] at hc
      subst hc
      obtain rfl : vs = [] := List.length_eq_zero_iff.mp (by omega)
      rw [List.length_nil, Nat.cast_zero] at hleft
      exact Or.inr ⟨by omega, b, y, rfl, hb⟩

/-! ### Insertion -/

/-- **`listinsert` puts the new node as many steps behind the head node as it walks.** -/
lemma listinsert_ends (hchain : m.Chain (some h) ((h, x) :: us ++ vs)) (ha : m a = none)
    (hi : us.length = (toInt32 (i - 1)).toNat) (e : ℤ) (junk : Node) :
    Ends (fun fuel => listinsert fuel (some h) i e (some a) junk m) fun (status, m') =>
      status = ok ∧ m'.Chain (some h) ((h, x) :: us ++ (a, e) :: vs)
        ∧ ∀ b ∉ a :: ((h, x) :: us ++ vs).map Prod.fst, m' b = m b := by
  obtain ⟨m₁, hm₁⟩ : ∃ m₁ : Mem Node, Function.update m a (some (junk.setData e)) = m₁ := ⟨_, rfl⟩
  have ha₁ : m₁ a = some (junk.setData e) := by rw [← hm₁, Function.update_self]
  have hrest₁ : ∀ b, b ≠ a → m₁ b = m b := fun b hb => by rw [← hm₁, Function.update_of_ne hb]
  have hnew := hchain.not_mem ha
  have hchain₁ : m₁.Chain (some h) ((h, x) :: us ++ vs) :=
    hchain.frame fun b hb => hrest₁ b (ne_of_mem_of_not_mem hb hnew)
  simp only [listinsert, Mem.tryMalloc, Mem.malloc_eq ha, reduceCtorEq, if_false,
    Mem.modify_update, hm₁, Option.bind_eq_bind, Option.bind_some]
  refine Ends.bind (walk_ends hchain₁.nodes (by rw [hi, sub_zero])) fun r hr => ?_
  obtain ⟨q, j⟩ := r
  obtain ⟨b, y, hlast, htail⟩ := hchain₁.nodes.drop_links
  obtain rfl : q = some b := hr.trans hlast
  have hb : m₁ b = some ⟨y, firstOf none vs⟩ := htail.head
  -- the new node, and then the node in front of it
  obtain ⟨m₂, hnext, ha₂, hrest₂⟩ := Mem.modify_spec ha₁ (SingleNode.setNext (firstOf none vs))
  have hchain₂ : m₂.Chain (some h) ((h, x) :: us ++ vs) :=
    hchain₁.frame fun b hb => hrest₂ b (ne_of_mem_of_not_mem hb hnew)
  have hnodes₂ := hchain₂.nodes
  rw [links_append, Mem.holds_append] at hnodes₂
  have hback : m₂.Chain (some a) ((a, e) :: vs) := hchain₂.drop.cons ha₂
  obtain ⟨m₃, hlink, hnodes₃, hrest₃⟩ := hnodes₂.1.attach hback (List.cons_ne_nil _ _)
    (nodup_insert _ hchain.nodup hnew) none
  rw [lastOf_cons, hlast] at hlink
  refine .of_eq (r := (ok, m₃)) (fun _ => by simp [Mem.read_eq hb, hnext, hlink])
    ⟨rfl, ⟨rfl, hnodes₃⟩, fun c hc => ?_⟩
  rw [List.mem_cons, List.map_append, List.mem_append, not_or, not_or] at hc
  exact (hrest₃ c hc.2.1).trans ((hrest₂ c hc.1).trans (hrest₁ c hc.1))

/-- **`listinsert` follows `NULL`** when the list is shorter than its walk. -/
lemma listinsert_eq_none (hchain : m.Chain (some h) ((h, x) :: L)) (ha : m a = none)
    (hi : L.length < toInt32 (i - 1)) : listinsert fuel (some h) i e (some a) junk m = none := by
  have hchain₁ : Mem.Chain (Function.update m a (some (junk.setData e))) (some h) ((h, x) :: L) :=
    hchain.frame fun b hb => Function.update_of_ne (ne_of_mem_of_not_mem hb (hchain.not_mem ha)) _ _
  simp only [listinsert, Mem.tryMalloc, Mem.malloc_eq ha, reduceCtorEq, if_false, Mem.modify_update,
    Option.bind_eq_bind, Option.bind_some]
  cases hr : walk (Function.update m a (some (junk.setData e))) (toInt32 (i - 1)) fuel
    (some h, 0) with
  | none => rfl
  | some r =>
      obtain ⟨q, j⟩ := r
      rcases walk_past_end hchain₁.nodes (by omega) hr with ⟨-, hq⟩ | ⟨hlen, -⟩
      · obtain rfl : q = none := hq
        rfl
      · omega

/-! ### Deletion -/

/-- The node that `listdel` allocates is not one of the list. -/
lemma tryMalloc_spec (hchain : m.Chain q L) (hp : ∀ a, p = some a → m a = none) (junk : Node) :
    ∃ m₁ : Mem Node, m.tryMalloc p junk = some m₁ ∧ m₁.Chain q L := by
  cases p with
  | none => exact ⟨m, rfl, hchain⟩
  | some a =>
      have ha := hp a rfl
      exact ⟨_, Mem.malloc_eq ha junk, hchain.frame fun b hb =>
        Function.update_of_ne (ne_of_mem_of_not_mem hb (hchain.not_mem ha)) _ _⟩

/-- **`listdel` takes out the node as many steps behind the first one as it walks**, and reports its
value. -/
lemma listdel_ends (hchain : m.Chain (some h) ((h, x) :: us ++ (c, y) :: vs))
    (hp : ∀ a, p = some a → m a = none) (hi : us.length = (toInt32 (i - 1)).toNat) (junk : Node) :
    Ends (fun fuel => listdel fuel (some h) i p junk m) fun (status, e, m') =>
      status = ok ∧ e = y ∧ m'.Chain (some h) ((h, x) :: us ++ vs) ∧ m' c = none := by
  obtain ⟨m₁, hmalloc, hchain₁⟩ := tryMalloc_spec hchain hp junk
  simp only [listdel, hmalloc, Option.bind_eq_bind, Option.bind_some]
  refine Ends.bind (walk_ends hchain₁.nodes (by rw [hi, sub_zero])) fun r hr => ?_
  obtain ⟨q, j⟩ := r
  obtain ⟨b, z, hlast, htail⟩ := hchain₁.nodes.drop_links
  obtain rfl : q = some b := hr.trans hlast
  have hb : m₁ b = some ⟨z, some c⟩ := htail.head
  have hc : m₁ c = some ⟨y, firstOf none vs⟩ := hchain₁.nodes.node
  have hnodes₁ := hchain₁.nodes
  rw [links_append, Mem.holds_append] at hnodes₁
  have hback : m₁.Chain (firstOf none vs) vs := hchain₁.drop.tail
  have hnodup := hchain.nodup
  rw [List.map_append, List.map_cons (l := vs), List.nodup_middle, ← List.map_append,
    List.nodup_cons] at hnodup
  obtain ⟨hnew, hnodup⟩ := hnodup
  obtain ⟨m₂, hlink, hnodes₂, hrest₂⟩ :=
    hnodes₁.1.attach hback (List.cons_ne_nil _ _) hnodup none
  rw [lastOf_cons, hlast] at hlink
  have hc₂ : m₂ c = some ⟨y, firstOf none vs⟩ := by
    rw [hrest₂ c fun hmem => hnew ?_, hc]
    rw [List.map_append]
    exact List.mem_append_left _ hmem
  obtain ⟨m₃, hclear, hc₃, hrest₃⟩ := Mem.modify_spec hc₂ (SingleNode.setNext none)
  have hchain₂ : m₂.Chain (some h) ((h, x) :: us ++ vs) := ⟨rfl, hnodes₂⟩
  refine .of_eq (r := (ok, y, Function.update m₃ c none)) (fun _ => ?_)
    ⟨rfl, rfl, hchain₂.frame fun d hd => ?_, Function.update_self _ _ _⟩
  · simp [Mem.read_eq hb, Mem.read_eq hc, hlink, hclear, Mem.free_eq hc₃]
  · have hdc : d ≠ c := ne_of_mem_of_not_mem hd hnew
    exact (Function.update_of_ne hdc _ _).trans (hrest₃ d hdc)

/-- **`listdel` follows `NULL`** when the list has no node behind its walk. -/
lemma listdel_eq_none (hchain : m.Chain (some h) ((h, x) :: L)) (hp : ∀ a, p = some a → m a = none)
    (hi : L.length ≤ toInt32 (i - 1)) : listdel fuel (some h) i p junk m = none := by
  obtain ⟨m₁, hmalloc, hchain₁⟩ := tryMalloc_spec hchain hp junk
  simp only [listdel, hmalloc, Option.bind_eq_bind, Option.bind_some]
  cases hr : walk m₁ (toInt32 (i - 1)) fuel (some h, 0) with
  | none => rfl
  | some r =>
      obtain ⟨q, j⟩ := r
      rcases walk_past_end hchain₁.nodes (by omega) hr with ⟨-, hq⟩ | ⟨-, b, y, hq, hb⟩
      · obtain rfl : q = none := hq
        rfl
      · obtain rfl : q = some b := hq
        rw [Option.bind_some, Mem.read_eq hb]
        rfl

/-! ### The positions -/

/-- What is asked of `listinsert` at the position `i` of the list `L`: that it inserts `e` as the
`i`-th element, or that it rejects the position. -/
def InsertMeets (h : ℕ) (x : ℤ) (L : List (ℕ × ℤ)) (i e : ℤ) (p : Ptr) (junk : Node)
    (m : Mem Node) : Prop :=
  ∃ status m', Returns (fun fuel => listinsert fuel (some h) i e p junk m) (status, m')
    ∧ if 1 ≤ i ∧ i ≤ L.length + 1 then
        status = ok ∧ ∃ a, m'.Chain (some h) ((h, x) :: L.insertIdx (i - 1).toNat (a, e))
      else status = error ∧ m'.Chain (some h) ((h, x) :: L)

/-- What is asked of `listdel` at the position `i` of the list `L`: that it removes the `i`-th
element and reports it, or that it rejects the position. -/
def DeleteMeets (h : ℕ) (x : ℤ) (L : List (ℕ × ℤ)) (i e : ℤ) (q : Ptr) (junk : Node)
    (m : Mem Node) : Prop :=
  ∃ status e' m', Returns (fun fuel => listdel fuel (some h) i q junk m) (status, e', m')
    ∧ if 1 ≤ i ∧ i ≤ L.length then
        status = ok ∧ L[(i - 1).toNat]?.map Prod.snd = some e'
          ∧ m'.Chain (some h) ((h, x) :: L.eraseIdx (i - 1).toNat)
      else status = error ∧ e' = e ∧ m'.Chain (some h) ((h, x) :: L)

lemma error_ne_ok : error ≠ ok := by decide

/-- A node was allocated: `listinsert` does not report anything but success. -/
lemma listinsert_status {list : Ptr} {status : ℤ} {m' : Mem Node}
    (hret : listinsert fuel list i e (some a) junk m = some (status, m')) : status = ok := by
  simp only [listinsert, reduceCtorEq, if_false, Option.bind_eq_bind, Option.bind_eq_some_iff,
    Option.pure_def, Option.some_inj, Prod.mk.injEq] at hret
  obtain ⟨_, -, _, -, _, -, _, -, _, -, _, -, rfl, -⟩ := hret
  rfl

/-- `listdel` does not report anything but success. -/
lemma listdel_status {list : Ptr} {status e' : ℤ} {m' : Mem Node}
    (hret : listdel fuel list i p junk m = some (status, e', m')) : status = ok := by
  simp only [listdel, Option.bind_eq_bind, Option.bind_eq_some_iff, Option.pure_def,
    Option.some_inj, Prod.mk.injEq] at hret
  obtain ⟨_, -, _, -, _, -, _, -, _, -, _, -, _, -, _, -, rfl, -⟩ := hret
  rfl

lemma insertIdx_length (us vs : List (ℕ × ℤ)) (c : ℕ × ℤ) :
    (us ++ vs).insertIdx us.length c = us ++ c :: vs := by
  induction us with
  | nil => exact List.insertIdx_zero
  | cons u us ih => rw [List.cons_append, List.length_cons, List.insertIdx_succ_cons, ih]; rfl

/-- The list in front of a position and behind it. -/
lemma exists_split (hi : IsInt32 i) (h₁ : 1 ≤ i) (h₂ : i ≤ L.length + 1) :
    ∃ us vs, L = us ++ vs ∧ us.length = (i - 1).toNat
      ∧ us.length = (toInt32 (i - 1)).toNat := by
  have hint : toInt32 (i - 1) = i - 1 := by
    rw [IsInt32] at hi
    exact toInt32_of_isInt32 ⟨by omega, by omega⟩
  have hlen : (L.take (i - 1).toNat).length = (i - 1).toNat := by
    rw [List.length_take]
    omega
  exact ⟨_, _, (List.take_append_drop _ L).symm, hlen, by rw [hint, hlen]⟩

/-- Without memory for a node nothing is inserted. -/
lemma insertMeets_null (hchain : m.Chain (some h) ((h, x) :: L)) :
    InsertMeets h x L i e none junk m ↔ ¬(1 ≤ i ∧ i ≤ L.length + 1) := by
  have hret : Returns (fun fuel => listinsert fuel (some h) i e none junk m) (error, m) :=
    ⟨0, fun _ _ => rfl⟩
  constructor
  · rintro ⟨status, m', hret', hmeets⟩ hrange
    rw [if_pos hrange] at hmeets
    exact error_ne_ok ((Prod.ext_iff.mp (hret.unique hret')).1.trans hmeets.1)
  · intro hrange
    exact ⟨error, m, hret, by rw [if_neg hrange]; exact ⟨rfl, hchain⟩⟩

lemma insertMeets_iff (hchain : m.Chain (some h) ((h, x) :: L)) (hi : IsInt32 i) (ha : m a = none) :
    InsertMeets h x L i e (some a) junk m ↔ 1 ≤ i ∧ i ≤ L.length + 1 := by
  constructor
  · rintro ⟨status, m', ⟨N, hret⟩, hmeets⟩
    by_contra hrange
    rw [if_neg hrange, listinsert_status (hret N le_rfl)] at hmeets
    exact error_ne_ok hmeets.1.symm
  · intro hrange
    obtain ⟨us, vs, rfl, hlen, hwalk⟩ := exists_split hi hrange.1 hrange.2
    obtain ⟨⟨status, m'⟩, hret, hstatus, hchain', -⟩ := listinsert_ends hchain ha hwalk e junk
    refine ⟨status, m', hret, ?_⟩
    rw [if_pos hrange, ← hlen]
    refine ⟨hstatus, a, ?_⟩
    rw [insertIdx_length]
    exact hchain'

lemma deleteMeets_iff (hchain : m.Chain (some h) ((h, x) :: L)) (hi : IsInt32 i)
    (hp : ∀ a, p = some a → m a = none) :
    DeleteMeets h x L i e p junk m ↔ 1 ≤ i ∧ i ≤ L.length := by
  constructor
  · rintro ⟨status, e', m', ⟨N, hret⟩, hmeets⟩
    by_contra hrange
    rw [if_neg hrange, listdel_status (hret N le_rfl)] at hmeets
    exact error_ne_ok hmeets.1.symm
  · intro hrange
    obtain ⟨us, vs, rfl, hlen, hwalk⟩ := exists_split hi hrange.1 (show i ≤ L.length + 1 by omega)
    cases vs with
    | nil =>
        rw [List.append_nil] at hrange
        omega
    | cons c vs =>
        obtain ⟨c, y⟩ := c
        obtain ⟨⟨status, e', m'⟩, hret, hstatus, he, hchain', -⟩ :=
          listdel_ends hchain hp hwalk junk
        refine ⟨status, e', m', hret, ?_⟩
        rw [if_pos hrange, ← hlen, List.getElem?_append_right le_rfl, Nat.sub_self,
          List.getElem?_cons_zero, List.eraseIdx_append_of_length_le le_rfl, Nat.sub_self,
          List.eraseIdx_cons_zero]
        exact ⟨hstatus, congrArg some he.symm, hchain'⟩

/-- **The positions that `listinsert` and `listdel` serve as they should** are those of the list.
Neither rejects a position: where `listinsert` does, it has no memory for the node. -/
theorem positions_iff (hchain : m.Chain (some h) ((h, x) :: L)) (hi : IsInt32 i)
    (hp : ∀ a, p = some a → m a = none) (e : ℤ) (junk : Node) :
    (InsertMeets h x L i e p junk m ↔ (1 ≤ i ∧ i ≤ L.length + 1 ↔ p ≠ none))
    ∧ (DeleteMeets h x L i e p junk m ↔ 1 ≤ i ∧ i ≤ L.length) := by
  refine ⟨?_, deleteMeets_iff hchain hi hp⟩
  cases p with
  | none => simp [insertMeets_null hchain]
  | some a => simp [insertMeets_iff hchain hi (hp a rfl)]

/-- The position 2 of a list with one node. -/
theorem positions_iff_one :
    InsertMeets 1 0 [(2, 5)] 2 7 (some 3) ⟨0, none⟩ (Mem.ofCells (links [(1, 0), (2, 5)] none))
    ∧ ¬ DeleteMeets 1 0 [(2, 5)] 2 7 (some 3) ⟨0, none⟩
        (Mem.ofCells (links [(1, 0), (2, 5)] none)) := by
  have hchain : Mem.Chain (Mem.ofCells (links [(1, 0), (2, 5)] none)) (some 1)
    [(1, (0 : ℤ)), (2, 5)] := .ofCells (by decide)
  have hp : ∀ a, some 3 = some a → (Mem.ofCells (links [(1, 0), (2, (5 : ℤ))] none)) a = none :=
    fun a ha => by obtain rfl := Option.some_inj.mp ha; rfl
  have hi : IsInt32 2 := by rw [IsInt32]; omega
  obtain ⟨hinsert, hdelete⟩ := positions_iff hchain hi hp 7 ⟨0, none⟩
  exact ⟨hinsert.mpr (by simp), mt hdelete.mp (by simp)⟩

/-- The positions outside of a list with one node: the new node becomes the first one, or the call
follows `NULL`. -/
theorem positions_reject_fails :
    Ends (fun fuel => listinsert fuel (some 1) 0 7 (some 3) ⟨0, none⟩
        (Mem.ofCells (links [(1, 0), (2, 5)] none)))
      (fun (status, m) => status = ok ∧ m.Chain (some 1) [(1, 0), (3, 7), (2, 5)])
    ∧ ¬ InsertMeets 1 0 [(2, 5)] 0 7 (some 3) ⟨0, none⟩
        (Mem.ofCells (links [(1, 0), (2, 5)] none))
    ∧ (∀ fuel, listinsert fuel (some 1) 3 7 (some 3) ⟨0, none⟩
        (Mem.ofCells (links [(1, 0), (2, 5)] none)) = none)
    ∧ (∀ fuel, listdel fuel (some 1) 2 (some 3) ⟨0, none⟩
        (Mem.ofCells (links [(1, 0), (2, 5)] none)) = none)
    ∧ ¬ DeleteMeets 1 0 [(2, 5)] 2 7 (some 3) ⟨0, none⟩
        (Mem.ofCells (links [(1, 0), (2, 5)] none)) := by
  have hchain : Mem.Chain (Mem.ofCells (links [(1, 0), (2, 5)] none)) (some 1)
    [(1, (0 : ℤ)), (2, 5)] := .ofCells (by decide)
  have hchain' : Mem.Chain (Mem.ofCells (links [(1, 0), (2, 5)] none)) (some 1)
    ((1, (0 : ℤ)) :: [] ++ [(2, 5)]) := hchain
  have hinsert := listinsert_ends hchain' (a := 3) rfl (i := 0) rfl 7 ⟨0, none⟩
  have hdelete : ∀ fuel, listdel fuel (some 1) 2 (some 3) ⟨0, none⟩
      (Mem.ofCells (links [(1, 0), (2, 5)] none)) = none := fun fuel =>
    listdel_eq_none hchain (fun a ha => by obtain rfl := Option.some_inj.mp ha; rfl) (by decide)
  refine ⟨hinsert.mono fun r hr => ⟨hr.1, hr.2.1⟩, ?_,
    fun fuel => listinsert_eq_none hchain rfl (by decide), hdelete, ?_⟩
  · rintro ⟨status, m', ⟨N, hret⟩, hmeets⟩
    rw [if_neg (by omega), listinsert_status (hret N le_rfl)] at hmeets
    exact error_ne_ok hmeets.1.symm
  · rintro ⟨status, e', m', hret, -⟩
    exact not_returns hdelete hret

/-! ### The merge -/

/-- The nodes `xs` are linked already, up to the one that `pc` points to, and the nodes `A` and `B`
are left of the two lists. -/
structure Merging (m : Mem Node) (pa pb pc : Ptr) (xs A B : List (ℕ × ℤ)) : Prop where
  linked : ∃ q, m.Holds (links xs q)
  ne : xs ≠ []
  last : pc = lastOf none xs
  left : m.Chain pa A
  right : m.Chain pb B
  nodup : ((xs ++ (A ++ B)).map Prod.fst).Nodup

namespace Merging

variable {pc : Ptr}

/-- The two lists change places. -/
lemma symm (hs : Merging m pa pb pc xs A B) : Merging m pb pa pc xs B A := by
  have hcomm : (xs ++ (B ++ A)).Perm (xs ++ (A ++ B)) := List.perm_append_comm.append_left xs
  exact ⟨hs.linked, hs.ne, hs.last, hs.right, hs.left, (hcomm.map _).nodup_iff.mpr hs.nodup⟩

/-- **A node is taken**: `pc->next = pa; pc = pa; pa = pa->next;` -/
lemma take (hs : Merging m pa pb pc xs ((a, x) :: A) B) :
    ∃ m', m.modify pc (SingleNode.setNext pa) = some m' ∧ m' a = some ⟨x, firstOf none A⟩
      ∧ Merging m' (firstOf none A) pb pa (xs ++ [(a, x)]) A B
      ∧ ∀ b ∉ xs.map Prod.fst, m' b = m b := by
  obtain ⟨⟨q, hxs⟩, hne, rfl, hA, hB, hnodup⟩ := hs
  obtain rfl := hA.first
  have hnodup' := hnodup
  rw [List.map_append, List.nodup_append', List.map_append, List.disjoint_append_right] at hnodup
  obtain ⟨hxs_nodup, -, hxsA, hxsB⟩ := hnodup
  obtain ⟨m', hlink, hxs', hrest⟩ := hxs.linkLast (p := none) hxs_nodup hne (some a)
  have hA' : m'.Chain (some a) ((a, x) :: A) :=
    hA.frame fun b hb => hrest b fun hmem => hxsA hmem hb
  have hB' : m'.Chain pb B := hB.frame fun b hb => hrest b fun hmem => hxsB hmem hb
  have hxs₁ : m'.Holds (links (xs ++ [(a, x)]) (firstOf none A)) := by
    rw [links_append, Mem.holds_append]
    exact ⟨hxs', by simpa using hA'.head⟩
  refine ⟨m', hlink, hA'.head, ⟨⟨_, hxs₁⟩, by simp, ?_, hA'.tail, hB', ?_⟩, hrest⟩
  · rw [lastOf_append]
    rfl
  · rwa [List.append_assoc, List.singleton_append, ← List.cons_append]

end Merging

/-- **The loop of `MergeList`**: what is linked, followed by the merge of what is left, stays the
same list until one of the two lists has come to its end. -/
lemma mergeLoop_ends {pc : Ptr} (hs : Merging m pa pb pc xs A B) :
    Ends (fun fuel => mergeLoop fuel (m, pa, pb, pc)) fun (m', pa', pb', pc') =>
      ∃ xs' A' B', Merging m' pa' pb' pc' xs' A' B' ∧ (A' = [] ∨ B' = [])
        ∧ xs' ++ A'.merge B' (keyLe Prod.snd) = xs ++ A.merge B (keyLe Prod.snd)
        ∧ ∀ b ∉ (xs ++ (A ++ B)).map Prod.fst, m' b = m b := by
  induction hn : A.length + B.length using Nat.strong_induction_on
    generalizing m xs pa pb pc A B with
  | _ n ih =>
      have hpa := hs.left.first
      have hpb := hs.right.first
      match A, B with
      | [], B =>
          exact Ends.whileLoop_false (by simp [hpa]) ⟨xs, [], B, hs, .inl rfl, rfl, fun _ _ => rfl⟩
      | A, [] =>
          exact Ends.whileLoop_false (by simp [hpb]) ⟨xs, A, [], hs, .inr rfl, rfl, fun _ _ => rfl⟩
      | (a, x) :: A, (b, y) :: B =>
          obtain rfl : pa = some a := hpa
          obtain rfl : pb = some b := hpb
          have hxs : ∀ c ∉ (xs ++ ((a, x) :: A ++ (b, y) :: B)).map Prod.fst,
              c ∉ xs.map Prod.fst := fun c hc hmem => hc (by simp [hmem])
          refine Ends.whileLoop_true (by simp) ?_
          simp only [Mem.read_eq hs.left.head, Mem.read_eq hs.right.head, Option.bind_eq_bind,
            Option.bind_some]
          by_cases hle : x ≤ y
          · obtain ⟨m₁, hlink, ha₁, hs₁, hrest₁⟩ := hs.take
            have hL : xs ++ [(a, x)] ++ (A ++ (b, y) :: B)
                = xs ++ ((a, x) :: A ++ (b, y) :: B) := by
              rw [List.append_assoc]
              rfl
            simp only [hle, if_true, hlink, Option.bind_some, Mem.read_eq ha₁]
            refine .of_eq (fun _ => rfl) ((ih _ (by simp [← hn]) hs₁ rfl).mono fun r hr => ?_)
            obtain ⟨xs', A', B', hs', hend, hresult, hrest⟩ := hr
            refine ⟨xs', A', B', hs', hend, ?_, fun c hc =>
              (hrest c (by rwa [hL])).trans (hrest₁ c (hxs c hc))⟩
            rw [hresult, List.cons_merge_cons_pos _ _ _ (decide_eq_true hle), List.append_assoc]
            rfl
          · obtain ⟨m₁, hlink, hb₁, hs₁, hrest₁⟩ := hs.symm.take
            have hL : (xs ++ [(b, y)] ++ ((a, x) :: A ++ B)).Perm
                (xs ++ ((a, x) :: A ++ (b, y) :: B)) := by
              rw [List.append_assoc, List.singleton_append]
              exact List.perm_middle.symm.append_left xs
            simp only [hle, if_false, hlink, Option.bind_some, Mem.read_eq hb₁]
            refine .of_eq (fun _ => rfl)
              ((ih _ (by simp [← hn]) hs₁.symm rfl).mono fun r hr => ?_)
            obtain ⟨xs', A', B', hs', hend, hresult, hrest⟩ := hr
            refine ⟨xs', A', B', hs', hend, ?_, fun c hc =>
              (hrest c (by rwa [(hL.map _).mem_iff])).trans (hrest₁ c (hxs c hc))⟩
            rw [hresult, List.cons_merge_cons_neg _ _ _ (by simpa [keyLe] using hle),
              List.append_assoc]
            rfl

/-- `pc->next = pa ? pa : pb;`, when one of the lists has come to its end. -/
lemma Merging.finish {pc : Ptr} (hs : Merging m pa pb pc xs A B) (hend : A = [] ∨ B = []) :
    ∃ m', m.modify pc (SingleNode.setNext (if pa ≠ none then pa else pb)) = some m'
      ∧ m'.Holds (links (xs ++ A.merge B (keyLe Prod.snd)) none)
      ∧ ∀ b ∉ xs.map Prod.fst, m' b = m b := by
  obtain ⟨⟨q, hxs⟩, hne, rfl, hA, hB, hnodup⟩ := hs
  rcases hend with rfl | rfl
  · obtain rfl := hA.first
    rw [List.nil_merge]
    exact hxs.attach hB hne hnodup none
  · have hpb := hB.first
    rw [List.append_nil] at hnodup
    have hrest : (if pa ≠ none then pa else pb) = pa := by
      split_ifs with hpa
      · rfl
      · rw [hpb, not_not.mp hpa]
        rfl
    rw [List.merge_right, hrest]
    exact hxs.attach hA hne hnodup none

/-- **`MergeList` relinks the data nodes of two lists** behind the head node of the first: to an
interleaving of them, and of ascending lists to the ascending one that has equal values of `La` in
front of those of `Lb`. -/
theorem mergeList_merges (hA : m.Chain (some a) ((a, x) :: A)) (hB : m.Chain (some b) ((b, y) :: B))
    (hdisj : (((a, x) :: A).map Prod.fst).Disjoint (((b, y) :: B).map Prod.fst)) :
    Ends (fun fuel => mergeList fuel (some a) (some b) m) fun (lc, m') =>
      lc = some a ∧ ∃ C, m'.Chain lc ((a, x) :: C) ∧ C.Perm (A ++ B) ∧ A.Sublist C ∧ B.Sublist C
        ∧ (Ascending Prod.snd A → Ascending Prod.snd B → Ascending Prod.snd C
          ∧ ∀ k, C.filter (fun c => c.2 = k)
            = A.filter (fun c => c.2 = k) ++ B.filter fun c => c.2 = k)
        ∧ ∀ c ∉ a :: (A ++ B).map Prod.fst, m' c = m c := by
  have ha : m a = some ⟨x, firstOf none A⟩ := hA.head
  have hb : m b = some ⟨y, firstOf none B⟩ := hB.head
  have hnodup : (((a, x) :: (A ++ B)).map Prod.fst).Nodup := by
    rw [← List.cons_append, List.map_append, List.nodup_append']
    exact ⟨hA.nodup, (List.nodup_cons.mp hB.nodup).2,
      (List.disjoint_cons_right.mp hdisj).2⟩
  have hperm : (A.merge B (keyLe Prod.snd)).Perm (A ++ B) := List.merge_perm_append _
  have hstart : Merging m (firstOf none A) (firstOf none B) (some a) [(a, x)] A B :=
    ⟨⟨firstOf none A, by simpa using ha⟩, List.cons_ne_nil _ _, rfl, hA.tail, hB.tail, hnodup⟩
  simp only [mergeList, Mem.read_eq ha, Mem.read_eq hb, Option.bind_eq_bind, Option.bind_some]
  refine Ends.bind (mergeLoop_ends hstart) fun r hr => ?_
  obtain ⟨m₁, pa, pb, pc⟩ := r
  obtain ⟨xs, A', B', hs, hend, hresult, hrest₁⟩ := hr
  obtain ⟨m₂, hlink, hnodes₂, hrest₂⟩ := hs.finish hend
  rw [List.singleton_append] at hresult
  rw [hresult] at hnodes₂
  refine .of_eq (r := (some a, m₂)) (fun _ => by rw [hlink]; rfl)
    ⟨rfl, _, ⟨rfl, hnodes₂⟩, hperm, sublist_merge_left _, sublist_merge_right _,
      fun hascA hascB => ⟨ascending_merge hascA hascB, filter_merge hascA⟩, fun c hc => ?_⟩
  refine (hrest₂ c fun hmem => hc ?_).trans (hrest₁ c hc)
  have hmem' : c ∈ (xs ++ A'.merge B' (keyLe Prod.snd)).map Prod.fst := by
    rw [List.map_append]
    exact List.mem_append_left _ hmem
  rwa [hresult, ((hperm.cons (a, x)).map _).mem_iff] at hmem'

/-- Two lists of two nodes, with a value in common. -/
theorem mergeList_merges_four :
    Ends (fun fuel => mergeList fuel (some 1) (some 4)
        (Mem.ofCells (links [(1, 0), (2, 3), (3, 5)] none ++ links [(4, 0), (5, 3), (6, 4)] none)))
      fun (lc, m) => lc = some 1 ∧ ∃ C, m.Chain lc ((1, 0) :: C) ∧ Ascending Prod.snd C
        ∧ C.filter (fun c => c.2 = 3) = [(2, 3), (5, 3)] := by
  have hnodes : Mem.Holds (Mem.ofCells (links [(1, 0), (2, 3), (3, (5 : ℤ))] none
    ++ links [(4, 0), (5, 3), (6, 4)] none)) _ := Mem.holds_ofCells (by decide)
  rw [Mem.holds_append] at hnodes
  refine (mergeList_merges ⟨rfl, hnodes.1⟩ ⟨rfl, hnodes.2⟩ (by simp)).mono fun r hr => ?_
  obtain ⟨hlc, C, hchain, -, -, -, hasc, -⟩ := hr
  obtain ⟨hC, hfilter⟩ := hasc (by simp [Ascending]) (by simp [Ascending])
  exact ⟨hlc, C, hchain, hC, (hfilter 3).trans (by decide)⟩

end Wgs.LinkList
