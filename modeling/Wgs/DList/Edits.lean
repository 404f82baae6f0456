import Wgs.DList.Calls

/-!
`InsAfter`, `DelFirst` and `ClearList` on any well-formed list.

Each of them keeps the list well formed on some lists only: `InsAfter` makes the new node the tail
wherever it puts it (`insAfter_iff`), `DelFirst` follows the link of the first node without a test
(`delFirst_iff`), and `ClearList` leaves the link of the head node to the first node that it has
released (`clearList_iff`).
-/

namespace Wgs

open Foundation

variable {h p a : ℕ} {x i : ℤ} {s : DListState} {L xs ys : List (ℕ × ℤ)} {c : ℕ × ℤ} {n : Node}

/-! ### `InsAfter` -/

/-- The sequence with the entry `c` put behind the node `p`. -/
def putAfter (p : ℕ) (c : ℕ × ℤ) : List (ℕ × ℤ) → List (ℕ × ℤ)
  | [] => []
  | d :: L => if d.1 = p then d :: c :: L else d :: putAfter p c L

/-- The sequence with the entry `c` put behind the node `p`, which may be the head node `h`. -/
def insertedAfter (h p : ℕ) (c : ℕ × ℤ) (L : List (ℕ × ℤ)) : List (ℕ × ℤ) :=
  if p = h then c :: L else putAfter p c L

/-- `InsAfter(plist, p, s)`, `s` being the node `a` with the item `i`, leaves a well-formed list
with that node right behind `p`, and changes `tail` only if that was `p`. -/
def InsertsAfter (h : ℕ) (s : DListState) (L : List (ℕ × ℤ)) (p a : ℕ) (i : ℤ) : Prop :=
  ∃ s' : DListState, insAfter s.list (some p) (some a) s.mem = some (some a, s'.list, s'.mem)
    ∧ WellFormed h s' (insertedAfter h p (a, i) L)
    ∧ (s'.list.tail ≠ s.list.tail → s.list.tail = some p)

lemma putAfter_split (hp : p ∈ L.map Prod.fst) :
    ∃ xs y ys, L = xs ++ (p, y) :: ys ∧ putAfter p c L = xs ++ (p, y) :: c :: ys := by
  induction L with
  | nil => simp at hp
  | cons d L ih =>
      by_cases hd : d.1 = p
      · exact ⟨[], d.2, L, by simp [← hd], by rw [putAfter, if_pos hd, ← hd]; rfl⟩
      · obtain ⟨xs, y, ys, hL, hput⟩ := ih ((List.mem_cons.mp hp).resolve_left fun h => hd h.symm)
        exact ⟨d :: xs, y, ys, by rw [hL]; rfl, by rw [putAfter, if_neg hd, hput]; rfl⟩

/-- Where `p` is among the nodes, and what is put behind it. -/
lemma insertedAfter_split (hp : p ∈ h :: L.map Prod.fst) (x : ℤ) (c : ℕ × ℤ) :
    ∃ xs y ys, (h, x) :: L = xs ++ (p, y) :: ys
      ∧ (h, x) :: insertedAfter h p c L = xs ++ (p, y) :: c :: ys := by
  by_cases hph : p = h
  · subst hph
    exact ⟨[], x, L, rfl, by rw [insertedAfter, if_pos rfl]; rfl⟩
  · obtain ⟨xs, y, ys, hL, hput⟩ := putAfter_split (c := c) ((List.mem_cons.mp hp).resolve_left hph)
    exact ⟨(h, x) :: xs, y, ys, by rw [hL]; rfl, by rw [insertedAfter, if_neg hph, hput]; rfl⟩

lemma length_insertedAfter (hp : p ∈ h :: L.map Prod.fst) (c : ℕ × ℤ) :
    (insertedAfter h p c L).length = L.length + 1 := by
  obtain ⟨xs, y, ys, hL, hput⟩ := insertedAfter_split hp 0 c
  have hbefore := congrArg List.length hL
  have hafter := congrArg List.length hput
  simp only [List.length_cons, List.length_append] at hbefore hafter
  omega

/-- What `InsAfter` does: the chain is right, and `tail` is the new node. -/
lemma insAfter_run (hs : Threaded h x s L) {y : ℤ} (hL : (h, x) :: L = xs ++ (p, y) :: ys)
    (ha : s.mem a = some n) (hnew : a ∉ h :: L.map Prod.fst) :
    ∃ m', insAfter s.list (some p) (some a) s.mem
        = some (some a, ⟨some h, some a, toInt32 (L.length + 1)⟩, m')
      ∧ m'.Holds (chain none (xs ++ (p, y) :: (a, n.data) :: ys) none)
      ∧ ((xs ++ (p, y) :: (a, n.data) :: ys).map Prod.fst).Nodup := by
  have hholds := hs.holds
  have hdistinct := hs.distinct
  have hnot : a ∉ ((xs ++ [(p, y)]) ++ ys).map Prod.fst := by
    rw [List.append_assoc, List.singleton_append, ← hL]
    exact hnew
  have hsplit : xs ++ (p, y) :: ys = xs ++ [(p, y)] ++ ys := by rw [List.append_assoc]; rfl
  rw [hL, hsplit] at hholds hdistinct
  have hp : s.mem p = some ⟨y, lastOf none xs, firstOf none ys⟩ := by
    rw [List.append_assoc, chain_append, Mem.holds_append] at hholds
    exact (Mem.holds_cons.mp hholds.2).1
  have hpa : p ≠ a := by
    rintro rfl
    exact hnot (by simp)
  obtain ⟨m₁, hnext, ha₁, hrest₁⟩ := Mem.modify_spec ha (LinkNode.setNext (firstOf none ys))
  obtain ⟨m₂, hprevious, ha₂, hrest₂⟩ := Mem.modify_spec ha₁ (LinkNode.setPrevious (some p))
  have hrest : ∀ b, b ≠ a → m₂ b = s.mem b := fun b hb => by rw [hrest₂ b hb, hrest₁ b hb]
  have hholds₂ : m₂.Holds (chain none (xs ++ [(p, y)] ++ ys) none) := by
    refine hholds.frame fun b hb => hrest b (ne_of_mem_of_not_mem hb ?_)
    rwa [map_fst_chain]
  -- the node goes between the nodes up to `p` and those behind it
  have hlinks : m₂ a = some ⟨n.data, lastOf none (xs ++ [(p, y)]), firstOf none ys⟩ := by
    rw [ha₂, lastOf_append]
    rfl
  obtain ⟨m₃, m₄, hfirst, hlast, hholds₄, -⟩ :=
    hholds₂.insertFirstLast (xs ++ [(p, y)]) hdistinct (by simp) hlinks hnot
  rw [lastOf_append, lastOf_cons, lastOf_nil] at hlast
  have htail : s.list.tail ≠ none := by
    rw [hs.tail, lastOf_eq_getLast?]
    simp
  refine ⟨m₄, ?_, by simpa using hholds₄, ?_⟩
  · simp only [insAfter, Mem.read_eq hp, Option.bind_eq_bind, Option.bind_some, hnext, hprevious,
      Mem.read_eq ((hrest p hpa).trans hp), hfirst, hlast, htail, ne_eq, not_false_eq_true, if_true,
      DList.addSize, DList.setTail, hs.head, hs.size, Option.pure_def]
  · have hnodup := nodup_insert (x := n.data) (xs ++ [(p, y)]) hdistinct hnot
    rwa [List.append_assoc] at hnodup

/-- **When `InsAfter` is right**: exactly when `p` is the tail, and `size` stays an `int`. -/
theorem insAfter_iff (hs : WellFormed h s L) (hp : p ∈ h :: L.map Prod.fst)
    (ha : s.mem a = some n) (hnew : a ∉ h :: L.map Prod.fst) :
    InsertsAfter h s L p a n.data ↔ s.list.tail = some p ∧ L.length < 2147483647 := by
  obtain ⟨x, hs⟩ := hs.threaded
  obtain ⟨xs, y, ys, hL, hput⟩ := insertedAfter_split hp x (a, n.data)
  obtain ⟨m', hrun, hholds, hnodup⟩ := insAfter_run hs hL ha hnew
  have hdistinct := hnodup
  rw [← hput] at hholds hdistinct
  have hlength := length_insertedAfter hp (a, n.data)
  -- the last node before the call, and after it
  have hlast : s.list.tail = lastOf (some p) ys := by
    rw [hs.tail, ← lastOf_cons (p := none) (x := x), hL, lastOf_append, lastOf_cons]
  have hlast' : lastOf (some h) (insertedAfter h p (a, n.data) L) = lastOf (some a) ys := by
    rw [← lastOf_cons (p := none) (x := x), hput, lastOf_append, lastOf_cons, lastOf_cons]
  rw [List.map_append, List.map_cons, List.map_cons, List.nodup_append', List.nodup_cons,
    List.nodup_cons, List.mem_cons, not_or] at hnodup
  obtain ⟨-, ⟨⟨-, hpys⟩, hays, -⟩, -⟩ := hnodup
  rw [hlast, lastOf_eq_self_iff hpys]
  constructor
  · rintro ⟨s', hrun', hwell, -⟩
    obtain ⟨hlist, -⟩ : ⟨some h, some a, toInt32 (L.length + 1)⟩ = s'.list ∧ m' = s'.mem := by
      simpa using hrun.symm.trans hrun'
    have htail := hwell.tail
    have hsize := hwell.size
    rw [← hlist] at htail hsize
    rw [← lastOf_eq_getLast?, hlast'] at htail
    rw [hlength] at hsize
    refine ⟨(lastOf_eq_self_iff hays).mp htail.symm, ?_⟩
    have hint := isInt32_toInt32 (L.length + 1)
    simp only at hsize
    rw [hsize, IsInt32] at hint
    omega
  · rintro ⟨rfl, hfits⟩
    have hsize : toInt32 (L.length + 1) = L.length + 1 := toInt32_of_isInt32 ⟨by omega, by omega⟩
    have hthreaded : Threaded h x ⟨⟨some h, some a, toInt32 (L.length + 1)⟩, m'⟩
        (insertedAfter h p (a, n.data) L) := by
      refine ⟨rfl, hholds, hlast'.symm, ?_, hdistinct⟩
      rw [hlength, hsize, Nat.cast_succ]
    exact ⟨_, hrun, hthreaded.wellFormed, fun _ => hlast⟩

/-- The list of the nodes `L` with the head node `0`, and the node `9` beside it. -/
def listBeside (L : List (ℕ × ℤ)) : DListState :=
  ⟨⟨some 0, lastOf (some 0) L, L.length⟩,
    Mem.ofCells ((9, ⟨7, none, none⟩) :: chain none ((0, 0) :: L) none)⟩

lemma threaded_listBeside (hnodup : (9 :: 0 :: L.map Prod.fst).Nodup) :
    Threaded 0 0 (listBeside L) L := by
  have hcells : (((9, ⟨7, none, none⟩) :: chain none ((0, (0 : ℤ)) :: L) none).map
      Prod.fst).Nodup := by rwa [List.map_cons, map_fst_chain]
  exact ⟨rfl, (Mem.holds_cons.mp (Mem.holds_ofCells hcells)).2, rfl, rfl, hnodup.of_cons⟩

/-- Behind the last node. -/
theorem insAfter_iff_last : InsertsAfter 0 (listBeside [(1, 5)]) [(1, 5)] 1 9 7 :=
  (insAfter_iff (threaded_listBeside (by decide)).wellFormed (by decide) (n := ⟨7, none, none⟩) rfl
    (by decide)).mpr ⟨rfl, by decide⟩

/-- **Behind the head node** of a list with one data node, the new node becomes the tail, with
another node behind it. -/
theorem insAfter_head_fails :
    WellFormed 0 (listBeside [(1, 5)]) [(1, 5)]
      ∧ ((insAfter (listBeside [(1, 5)]).list (some 0) (some 9) (listBeside [(1, 5)]).mem).map
          fun r => r.2.1) = some ⟨some 0, some 9, 2⟩
      ∧ ¬ InsertsAfter 0 (listBeside [(1, 5)]) [(1, 5)] 0 9 7 := by
  have hrun : ((insAfter (listBeside [(1, 5)]).list (some 0) (some 9)
      (listBeside [(1, 5)]).mem).map fun r => r.2.1) = some ⟨some 0, some 9, 2⟩ := rfl
  refine ⟨(threaded_listBeside (by decide)).wellFormed, hrun, ?_⟩
  rintro ⟨s', hrun', -, htail⟩
  rw [hrun', Option.map_some, Option.some_inj] at hrun
  have hlist : s'.list = ⟨some 0, some 9, 2⟩ := hrun
  rw [hlist] at htail
  exact absurd (htail (by decide)) (by decide)

/-! ### `DelFirst` -/

/-- `DelFirst` returns the first data node, if there is one, and leaves a well-formed list of the
others. -/
def DeletesFirst (h : ℕ) (s : DListState) (L : List (ℕ × ℤ)) : Prop :=
  ∃ s' : DListState, delFirst s.list s.mem = some (L.head?.map Prod.fst, s'.list, s'.mem)
    ∧ WellFormed h s' L.tail

/-- The nodes without the first data node are distinct as well. -/
lemma nodup_without_second (hnodup : (((h, x) :: (a, i) :: L).map Prod.fst).Nodup) :
    (((h, x) :: L).map Prod.fst).Nodup :=
  hnodup.sublist ((List.sublist_cons_self a _).cons_cons h)

/-- The only data node has no successor to relink. -/
lemma delFirst_singleton (hs : Threaded h x s [c]) : delFirst s.list s.mem = none := by
  obtain ⟨a, i⟩ := c
  have hholds := hs.holds
  rw [chain_cons, chain_cons, chain_nil, Mem.holds_cons, Mem.holds_cons] at hholds
  obtain ⟨hh, ha, -⟩ := hholds
  obtain ⟨m₁, hnext, -, -⟩ := Mem.modify_spec hh (LinkNode.setNext none)
  have hh₁ : m₁.read (some h) LinkNode.next = some none := Mem.read_modify hh hnext LinkNode.next
  have htail : s.list.tail = some a := hs.tail
  simp only [delFirst, hs.head, htail, Mem.read_eq hh, Mem.read_eq ha, firstOf_cons, firstOf_nil,
    reduceCtorEq, if_false, if_true, Option.map_some, Option.bind_eq_bind, Option.bind_some, hnext,
    hh₁, Mem.modify_none, Option.bind_none]

/-- The first of several nodes is unlinked. -/
lemma delFirst_cons (hs : Threaded h x s ((a, i) :: L)) (hL : L ≠ []) :
    ∃ m', delFirst s.list s.mem
        = some (some a, ⟨some h, lastOf (some h) L, toInt32 (s.list.size + -1)⟩, m')
      ∧ m'.Holds (chain none ((h, x) :: L) none) := by
  obtain ⟨⟨b, j⟩, L', rfl⟩ := List.exists_cons_of_ne_nil hL
  have hholds := hs.holds
  have hdistinct := hs.distinct
  rw [chain_cons, chain_cons, Mem.holds_cons, Mem.holds_cons] at hholds
  obtain ⟨hh, ha, hrest⟩ := hholds
  have htail : s.list.tail = lastOf (some h) ((b, j) :: L') := hs.tail
  have hne : ¬ some a = lastOf (some h) ((b, j) :: L') := by
    rw [← htail, hs.tail, lastOf_cons, eq_comm,
      lastOf_eq_self_iff (List.nodup_cons.mp hdistinct.of_cons).1]
    exact List.cons_ne_nil _ _
  have hhead : s.mem.Holds (chain none [(h, x)] (some a)) :=
    Mem.holds_cons.mpr ⟨hh, Mem.holds_nil _⟩
  obtain ⟨m₁, m₂, hlast, hfirst, hholds₂, -⟩ :=
    hhead.join hrest (nodup_without_second hdistinct) (List.cons_ne_nil _ _)
  rw [lastOf_cons, lastOf_nil, firstOf_cons] at hlast hfirst
  rw [Mem.backLink_some] at hfirst
  have hh₁ := Mem.read_modify hh hlast LinkNode.next
  rw [LinkNode.setNext] at hh₁
  refine ⟨m₂, ?_, hholds₂⟩
  simp only [delFirst, hs.head, Mem.read_eq hh, Mem.read_eq ha, firstOf_cons, reduceCtorEq, htail,
    hne, if_false, Option.bind_eq_bind, Option.bind_some, hlast, hh₁, hfirst, DList.addSize,
    Option.pure_def]

/-- **When `DelFirst` is right**: exactly when there is not just one data node. -/
theorem delFirst_iff (hs : WellFormed h s L) (hint : IsInt32 s.list.size) :
    DeletesFirst h s L ↔ L.length ≠ 1 := by
  obtain ⟨x, hs⟩ := hs.threaded
  match L, hs with
  | [], hs =>
      refine iff_of_true ⟨s, ?_, hs.wellFormed⟩ (by simp)
      have hh := hs.holds
      rw [chain_cons, Mem.holds_cons] at hh
      simp [delFirst, hs.head, Mem.read_eq hh.1]
  | [c], hs =>
      refine iff_of_false ?_ (by simp)
      rintro ⟨s', hrun, -⟩
      rw [delFirst_singleton hs] at hrun
      cases hrun
  | (a, i) :: c :: L, hs =>
      obtain ⟨m', hrun, hholds⟩ := delFirst_cons hs (List.cons_ne_nil c L)
      rw [IsInt32, hs.size, List.length_cons] at hint
      have hsize : toInt32 (s.list.size + -1) = (c :: L).length := by
        rw [hs.size, List.length_cons, Nat.cast_succ, add_neg_cancel_right]
        exact toInt32_of_isInt32 ⟨by omega, by push_cast at hint; omega⟩
      have hthreaded : Threaded h x
          ⟨⟨some h, lastOf (some h) (c :: L), toInt32 (s.list.size + -1)⟩, m'⟩ (c :: L) :=
        ⟨rfl, hholds, rfl, hsize, nodup_without_second hs.distinct⟩
      exact iff_of_true ⟨⟨_, m'⟩, hrun, hthreaded.wellFormed⟩ (by simp)

/-- Two data nodes. -/
theorem delFirst_iff_two : DeletesFirst 0 (listBeside [(1, 5), (2, 6)]) [(1, 5), (2, 6)] :=
  (delFirst_iff (threaded_listBeside (by decide)).wellFormed ⟨by decide, by decide⟩).mpr (by decide)

/-- **The only data node**: the link of the last node is `NULL`, and `DelFirst` writes through
it. -/
theorem delFirst_only_fails :
    WellFormed 0 (listBeside [(1, 5)]) [(1, 5)]
      ∧ delFirst (listBeside [(1, 5)]).list (listBeside [(1, 5)]).mem = none
      ∧ ¬ DeletesFirst 0 (listBeside [(1, 5)]) [(1, 5)] := by
  have hs : Threaded 0 0 (listBeside [(1, 5)]) [(1, 5)] := threaded_listBeside (by decide)
  refine ⟨hs.wellFormed, delFirst_singleton hs, ?_⟩
  rintro ⟨s', hrun, -⟩
  rw [delFirst_singleton hs] at hrun
  cases hrun

/-! ### `ClearList` -/

/-- `ClearList` releases every data node once, and nothing else, and leaves a well-formed empty
list, on which `InsFirst` touches no node that is not allocated. -/
def ClearsList (h : ℕ) (s : DListState) (L : List (ℕ × ℤ)) : Prop :=
  ∃ (s' : DListState) (freed : List ℕ),
    Returns (fun fuel => clearList fuel s.list s.mem) (freed, s'.list, s'.mem)
      ∧ freed.Perm (L.map Prod.fst) ∧ WellFormed h s' []
      ∧ ∀ a n, a ≠ h → s'.mem a = some n → (insFirst s'.list (some a) s'.mem).isSome

/-- The loop goes backwards over the data nodes, whatever the last one links to, and leaves the
head node as it was. -/
lemma clearLoop_returns {m : Mem Node} {q : Ptr} (hholds : m.Holds (chain none ((h, x) :: L) q))
    (hdistinct : (((h, x) :: L).map Prod.fst).Nodup) (hfits : L.length ≤ 2147483647) :
    ∃ m', Returns
        (fun fuel => clearLoop fuel (lastOf (some h) L) ⟨some h, lastOf (some h) L, L.length⟩ m)
        ((L.map Prod.fst).reverse, ⟨some h, some h, 0⟩, m')
      ∧ (∀ b ∈ L.map Prod.fst, m' b = none) ∧ ∀ b ∉ L.map Prod.fst, m' b = m b := by
  induction L using List.reverseRecOn generalizing m q with
  | nil =>
      refine ⟨m, .of_add 1 fun fuel => ?_, by simp, fun b _ => rfl⟩
      simp [clearLoop, isEmpty]
  | append_singleton L c ih =>
      obtain ⟨a, i⟩ := c
      rw [← List.cons_append, chain_append, Mem.holds_append] at hholds
      obtain ⟨hfront, hback⟩ := hholds
      have ha := (Mem.holds_cons.mp hback).1
      rw [← List.cons_append, List.map_append, List.nodup_append'] at hdistinct
      obtain ⟨hdistinct, -, hdisjoint⟩ := hdistinct
      have hnot : a ∉ ((h, x) :: L).map Prod.fst := fun hmem => hdisjoint hmem (by simp)
      have hnotL : a ∉ L.map Prod.fst := fun hmem => hnot (List.mem_cons_of_mem _ hmem)
      rw [List.length_append, List.length_singleton] at hfits
      have hrest : Mem.Holds (Function.update m a none) (chain none ((h, x) :: L) (some a)) :=
        hfront.update (by rwa [map_fst_chain])
      obtain ⟨m', hloop, hfreed, hkept⟩ := ih hrest hdistinct (by omega)
      refine ⟨m', hloop.succ fun fuel hloop => ?_, fun b hb => ?_, fun b hb => ?_⟩
      · have hsize : toInt32 (L.length + 1 + -1) = L.length := by
          rw [add_neg_cancel_right]
          exact toInt32_of_isInt32 ⟨by omega, by omega⟩
        have hne : ¬ ((L.length : ℤ) + 1 = 0) := by omega
        simp only [clearLoop, isEmpty, lastOf_append, lastOf_cons, lastOf_nil, List.length_append,
          List.length_singleton, Nat.cast_add, Nat.cast_one, hne, false_and, decide_false,
          Bool.false_eq_true, if_false, Mem.read_eq ha, Mem.free_eq ha, Option.bind_eq_bind,
          Option.bind_some, DList.setTail, DList.addSize, hsize, hloop, Option.pure_def]
        simp
      · rw [List.map_append, List.mem_append] at hb
        rcases hb with hb | hb
        · exact hfreed b hb
        · obtain rfl : b = a := by simpa using hb
          rw [hkept b hnotL, Function.update_self]
      · rw [List.map_append, List.mem_append, not_or] at hb
        rw [hkept b hb.1, Function.update_of_ne]
        rintro rfl
        exact hb.2 (by simp)

/-- **`ClearList` ends**: every data node is released once, from the last to the first, and `size`
and `tail` are those of an empty list. -/
lemma clearList_returns (hs : Threaded h x s L) (hint : IsInt32 s.list.size) :
    ∃ m', Returns (fun fuel => clearList fuel s.list s.mem)
        ((L.map Prod.fst).reverse, ⟨some h, some h, 0⟩, m')
      ∧ (∀ b ∈ L.map Prod.fst, m' b = none) ∧ ∀ b ∉ L.map Prod.fst, m' b = s.mem b := by
  have hfits : L.length ≤ 2147483647 := by
    rw [hs.size] at hint
    exact_mod_cast hint.2
  have hlist : s.list = ⟨some h, lastOf (some h) L, L.length⟩ := by
    rw [← hs.tail, ← hs.head, ← hs.size]
  simp only [clearList, hlist]
  exact clearLoop_returns hs.holds hs.distinct hfits

/-- **`DestroyList`** releases every node once, the head node last. -/
lemma destroyList_returns (hs : Threaded h x s L) (hint : IsInt32 s.list.size) :
    ∃ m', Returns (fun fuel => destroyList fuel s.list s.mem) ((L.map Prod.fst).reverse ++ [h], m')
      ∧ (∀ b ∈ h :: L.map Prod.fst, m' b = none) ∧ ∀ b ∉ h :: L.map Prod.fst, m' b = s.mem b := by
  obtain ⟨m', hclear, hfreed, hkept⟩ := clearList_returns hs hint
  have hnot : h ∉ L.map Prod.fst := (List.nodup_cons.mp hs.distinct).1
  have hh : m' h = some ⟨x, none, firstOf none L⟩ :=
    (hkept h hnot).trans (Mem.holds_cons.mp hs.holds).1
  refine ⟨Function.update m' h none, hclear.map fun fuel hfuel => ?_, fun b hb => ?_,
    fun b hb => ?_⟩
  · simp [destroyList, hfuel, Mem.free_eq hh]
  · by_cases hbh : b = h
    · rw [hbh, Function.update_self]
    · rw [Function.update_of_ne hbh, hfreed b ((List.mem_cons.mp hb).resolve_left hbh)]
  · rw [List.mem_cons, not_or] at hb
    rw [Function.update_of_ne hb.1, hkept b hb.2]

/-- `InsFirst` of an allocated node into the empty list. -/
lemma insFirst_isSome (hs : Threaded h x s []) (hah : a ≠ h) (ha : s.mem a = some n) :
    (insFirst s.list (some a) s.mem).isSome := by
  have hh : s.mem h = some ⟨x, none, none⟩ := (Mem.holds_cons.mp hs.holds).1
  obtain ⟨m₁, hnext, ha₁, hrest₁⟩ := Mem.modify_spec ha (LinkNode.setNext none)
  obtain ⟨m₂, hprevious, ha₂, hrest₂⟩ := Mem.modify_spec ha₁ (LinkNode.setPrevious (some h))
  have hh₂ : m₂ h = some ⟨x, none, none⟩ := by rw [hrest₂ h hah.symm, hrest₁ h hah.symm, hh]
  obtain ⟨m₃, hfirst, -, -⟩ := Mem.modify_spec hh₂ (LinkNode.setNext (some a))
  simp [insFirst, hs.head, Mem.read_eq hh, hnext, hprevious, Mem.read_eq hh₂, Mem.backLink, hfirst]

/-- After the data nodes are released, the head node still links to what was the first of them. -/
lemma not_clearsList (hs : Threaded h x s L) (hint : IsInt32 s.list.size) (hL : L ≠ []) :
    ¬ ClearsList h s L := by
  rintro ⟨s', freed, hreturns', -, hwell, -⟩
  obtain ⟨m', hreturns, -, hkept⟩ := clearList_returns hs hint
  obtain ⟨-, hlist, rfl⟩ : _ = freed ∧ ⟨some h, some h, 0⟩ = s'.list ∧ m' = s'.mem := by
    simpa using hreturns.unique hreturns'
  have hh : s'.mem h = some ⟨x, none, firstOf none L⟩ :=
    (hkept h (List.nodup_cons.mp hs.distinct).1).trans (Mem.holds_cons.mp hs.holds).1
  have hnext := hwell.tail_next
  rw [← hlist, Mem.read_eq hh, Option.some_inj] at hnext
  obtain ⟨c, L, rfl⟩ := List.exists_cons_of_ne_nil hL
  cases hnext

/-- **When `ClearList` is right**: exactly when there is nothing to clear. -/
theorem clearList_iff (hs : WellFormed h s L) (hint : IsInt32 s.list.size) :
    ClearsList h s L ↔ L = [] := by
  obtain ⟨x, hs⟩ := hs.threaded
  constructor
  · intro hclears
    by_contra hL
    exact not_clearsList hs hint hL hclears
  · rintro rfl
    obtain ⟨m', hreturns, -, hkept⟩ := clearList_returns hs hint
    have hmem : m' = s.mem := funext fun b => hkept b List.not_mem_nil
    subst hmem
    have hlist : s.list = ⟨some h, some h, 0⟩ := by
      have htail : s.list.tail = some h := hs.tail
      have hsize : s.list.size = 0 := hs.size
      rw [← hsize]
      nth_rewrite 2 [← htail]
      rw [← hs.head]
    refine ⟨s, [], ?_, .nil, hs.wellFormed, fun a n hah ha => insFirst_isSome hs hah ha⟩
    rw [hlist] at hreturns ⊢
    exact hreturns

/-- A list with no data node. -/
theorem clearList_iff_empty : ClearsList 0 (listBeside []) [] :=
  (clearList_iff (threaded_listBeside (by decide)).wellFormed ⟨by decide, by decide⟩).mpr rfl

/-- **One data node**: it is released, and `InsFirst` writes to it. -/
theorem clearList_one_fails :
    WellFormed 0 (listBeside [(1, 5)]) [(1, 5)]
      ∧ (∃ r, clearList 2 (listBeside [(1, 5)]).list (listBeside [(1, 5)]).mem = some r
        ∧ insFirst r.2.1 (some 9) r.2.2 = none)
      ∧ ¬ ClearsList 0 (listBeside [(1, 5)]) [(1, 5)] := by
  have hs : Threaded 0 0 (listBeside [(1, 5)]) [(1, 5)] := threaded_listBeside (by decide)
  exact ⟨hs.wellFormed, ⟨_, rfl, rfl⟩,
    not_clearsList hs ⟨by decide, by decide⟩ (List.cons_ne_nil _ _)⟩

end Wgs
