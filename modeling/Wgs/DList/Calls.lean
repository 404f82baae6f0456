import Wgs.DList.Sequence

/-!
What one call does to the chain of nodes.

Each call cuts the chain at one place, relinks the ends of the two parts and joins them again, with
a new node between them or without the last one.  `insFirst_spec`, `insBefore_spec`,
`remove_spec` and `locatePos_spec` say what becomes of the sequence; `DListCall.simulates` puts them
together.
-/

namespace Wgs

open Foundation

variable {h : ℕ} {s s' : DListState} {L : List (ℕ × ℤ)} {c : DListCall}

/-! ### New nodes -/

/-- `MakeNode` makes a node that is not linked, and leaves the other nodes alone. -/
lemma makeNode_spec {m : Mem Node} {a : ℕ} (ha : m a = none) (i : ℤ) (junk : Node) :
    ∃ m', makeNode i a junk m = some (some a, m') ∧ m' a = some ⟨i, none, none⟩
      ∧ ∀ b, b ≠ a → m' b = m b := by
  refine ⟨Function.update m a (some ⟨i, none, none⟩), ?_, Function.update_self _ _ _,
    fun b hb => Function.update_of_ne hb _ _⟩
  simp [makeNode, Mem.malloc_eq ha, Mem.modify, LinkNode.setPrevious, LinkNode.setNext]

/-- The chain of a new list. -/
lemma initList_linked {a : ℕ} {junk : Node} {m : Mem Node}
    (hinit : initList a junk m = some (s.list, s.mem)) : Linked a s [] := by
  have ha : m a = none := by
    by_contra hne
    obtain ⟨n, hn⟩ := Option.ne_none_iff_exists'.mp hne
    simp [initList, makeNode, Mem.malloc, hn] at hinit
  obtain ⟨m', hnew, ha', -⟩ := makeNode_spec ha 0 junk
  rw [initList, hnew] at hinit
  obtain ⟨hlist, hmem⟩ := Prod.ext_iff.mp (Option.some_inj.mp hinit)
  simp only at hlist hmem
  subst hmem
  exact ⟨hlist ▸ rfl, by simpa using ha', hlist ▸ rfl, hlist ▸ rfl, by simp, by simp⟩

/-- A new node, both links of which are set, beside the nodes there are. -/
lemma newNode_spec {m : Mem Node} {C : List (ℕ × Node)} (hC : m.Holds C) {a : ℕ} (ha : m a = none)
    (i : ℤ) (junk : Node) (f g : Node → Node) :
    ∃ m₁ m₂ m₃, makeNode i a junk m = some (some a, m₁) ∧ m₁.modify (some a) f = some m₂
      ∧ m₂.modify (some a) g = some m₃ ∧ m₃ a = some (g (f ⟨i, none, none⟩)) ∧ m₁.Holds C
      ∧ m₃.Holds C ∧ ∀ b, b ≠ a → m₃ b = m b := by
  have hnot := hC.not_mem ha
  obtain ⟨m₁, hnew, ha₁, hrest₁⟩ := makeNode_spec ha i junk
  obtain ⟨m₂, hf, ha₂, hrest₂⟩ := Mem.modify_spec ha₁ f
  obtain ⟨m₃, hg, ha₃, hrest₃⟩ := Mem.modify_spec ha₂ g
  have hrest : ∀ b, b ≠ a → m₃ b = m b := fun b hb => by
    rw [hrest₃ b hb, hrest₂ b hb, hrest₁ b hb]
  exact ⟨m₁, m₂, m₃, hnew, hf, hg, ha₃,
    hC.frame fun b hb => hrest₁ b (ne_of_mem_of_not_mem hb hnot),
    hC.frame fun b hb => hrest b (ne_of_mem_of_not_mem hb hnot), hrest⟩

/-- A fresh address is not that of a node of the list. -/
lemma Linked.not_mem (hs : Linked h s L) {a : ℕ} (ha : s.mem a = none) :
    a ∉ ((h, 0) :: L).map Prod.fst := by
  simpa only [map_fst_chain] using hs.holds.not_mem ha

/-- What is beside the nodes after an insertion is beside them and the new node. -/
lemma not_mem_of_insert (xs : List (ℕ × ℤ)) {ys : List (ℕ × ℤ)} {a b : ℕ} {i : ℤ}
    (hb : b ∉ h :: (xs ++ (a, i) :: ys).map Prod.fst) :
    b ∉ ((h, 0) :: (xs ++ ys)).map Prod.fst ∧ b ≠ a := by
  simp only [List.map_append, List.map_cons, List.mem_append, List.mem_cons, not_or] at hb ⊢
  exact ⟨⟨hb.1, hb.2.1, hb.2.2.2⟩, hb.2.2.1⟩

/-- Where `p` is in the sequence, and what is put in front of it. -/
lemma putBefore_split {p : ℕ} {c : ℕ × ℤ} (hp : p ∈ L.map Prod.fst) :
    ∃ xs y ys, L = xs ++ (p, y) :: ys ∧ putBefore p c L = xs ++ c :: (p, y) :: ys := by
  induction L with
  | nil => simp at hp
  | cons d L ih =>
      by_cases hd : d.1 = p
      · exact ⟨[], d.2, L, by simp [← hd], by rw [putBefore, if_pos hd, ← hd]; rfl⟩
      · obtain ⟨xs, y, ys, hL, hput⟩ := ih ((List.mem_cons.mp hp).resolve_left fun h => hd h.symm)
        exact ⟨d :: xs, y, ys, by rw [hL]; rfl, by rw [putBefore, if_neg hd, hput]; rfl⟩

/-- The list after `if(IsEmpty(plist)) plist->tail = pnode; plist->size++;`. -/
lemma Linked.list_insFirst (hs : Linked h s L) (a : ℕ) :
    (if isEmpty s.list then s.list.setTail (some a) else s.list).addSize 1
      = ⟨some h, lastOf (some a) L, toInt32 (L.length + 1)⟩ := by
  by_cases hL : L = []
  · rw [if_pos (hs.isEmpty_iff.mpr hL), DList.addSize, DList.setTail, hs.head, hs.size, hL]
    rfl
  · obtain ⟨c, L, rfl⟩ := List.exists_cons_of_ne_nil hL
    rw [if_neg (mt hs.isEmpty_iff.mp hL), DList.addSize, hs.head, hs.tail, hs.size]
    rfl

/-- What `InsFirst` does, whether `size` stays an `int` or not. -/
lemma insFirst_run (hs : Linked h s L) {a : ℕ} (ha : s.mem a = none) (i : ℤ) (junk : Node) :
    ∃ s', DListCall.Yields (.insFirst i a junk) s (some a) s'
      ∧ s'.list = ⟨some h, lastOf (some a) L, toInt32 (L.length + 1)⟩
      ∧ s'.mem.Holds (chain none ((h, 0) :: (a, i) :: L) none)
      ∧ (((h, 0) :: (a, i) :: L).map Prod.fst).Nodup
      ∧ ∀ b ∉ h :: a :: L.map Prod.fst, s'.mem b = s.mem b := by
  obtain ⟨m₁, m₂, m₃, hnew, hnext, hprevious, ha₃, hold₁, hold₃, hrest₃⟩ :=
    newNode_spec hs.holds ha i junk (LinkNode.setNext (firstOf none L))
      (LinkNode.setPrevious (some h))
  -- the node goes between the head node and the others
  obtain ⟨m₄, m₅, hfirst, hhead, hholds, hrest₅⟩ :=
    hold₃.insertFirstLast [(h, 0)] hs.distinct (by simp) ha₃ (hs.not_mem ha)
  have hh₁ := (Mem.holds_cons.mp hold₁).1
  have hh₃ := (Mem.holds_cons.mp hold₃).1
  rw [lastOf_cons, lastOf_nil] at hhead
  refine ⟨⟨_, m₅⟩, ⟨0, fun fuel _ => ?_⟩, rfl, hholds,
    nodup_insert [(h, 0)] hs.distinct (hs.not_mem ha), fun b hb => ?_⟩
  · simp only [DListCall.exec, hnew, Option.bind_eq_bind, Option.bind_some, insFirst,
      hs.list_insFirst, hs.head, Mem.read_eq hh₁, hnext, hprevious, Mem.read_eq hh₃, hfirst, hhead,
      Option.pure_def]
  · obtain ⟨hb, hba⟩ := not_mem_of_insert [] (i := i) hb
    exact (hrest₅ b hb).trans (hrest₃ b hba)

/-- **`InsFirst` prepends.** -/
lemma insFirst_spec (hs : Linked h s L) (hfits : L.length < 2147483647) {a : ℕ}
    (ha : s.mem a = none) (i : ℤ) (junk : Node) :
    ∃ s', DListCall.Yields (.insFirst i a junk) s (some a) s' ∧ Linked h s' ((a, i) :: L)
      ∧ ∀ b ∉ h :: a :: L.map Prod.fst, s'.mem b = s.mem b := by
  obtain ⟨s', hyields, hlist, hholds, hdistinct, hrest⟩ := insFirst_run hs ha i junk
  have hsize : toInt32 (L.length + 1) = L.length + 1 :=
    toInt32_of_isInt32 ⟨by omega, by omega⟩
  refine ⟨s', hyields, ⟨?_, hholds, ?_, ?_, hfits, hdistinct⟩, hrest⟩
  · rw [hlist]
  · rw [hlist]
    rfl
  · rw [hlist, List.length_cons, Nat.cast_add_one]
    exact hsize

/-- **`InsBefore` puts a node in front of another.** -/
lemma insBefore_spec (hs : Linked h s L) (hfits : L.length < 2147483647) {p a : ℕ}
    (hp : p ∈ L.map Prod.fst) (ha : s.mem a = none) (i : ℤ) (junk : Node) :
    ∃ s', DListCall.Yields (.insBefore p i a junk) s (some a) s'
      ∧ Linked h s' (putBefore p (a, i) L)
      ∧ ∀ b ∉ h :: (putBefore p (a, i) L).map Prod.fst, s'.mem b = s.mem b := by
  obtain ⟨xs, y, ys, rfl, hput⟩ := putBefore_split (c := (a, i)) hp
  obtain ⟨m₁, m₂, m₃, hnew, hprevious, hnext, ha₃, hold₁, hold₃, hrest₃⟩ :=
    newNode_spec hs.holds ha i junk (LinkNode.setPrevious (lastOf (some h) xs))
      (LinkNode.setNext (some p))
  -- the node goes between the nodes up to `p` and those from `p` on
  obtain ⟨m₄, m₅, hlast, hfirst, hholds, hrest₅⟩ :=
    hold₃.insertLastFirst ((h, 0) :: xs) hs.distinct (by simp) ha₃ (hs.not_mem ha)
  rw [← List.cons_append, chain_append, Mem.holds_append] at hold₁ hold₃
  have hp₁ := (Mem.holds_cons.mp hold₁.2).1
  have hp₃ := (Mem.holds_cons.mp hold₃.2).1
  rw [lastOf_cons] at hlast
  rw [firstOf_cons, Mem.backLink_some] at hfirst
  have hsize : toInt32 ((xs ++ (p, y) :: ys).length + 1) = (xs ++ (p, y) :: ys).length + 1 :=
    toInt32_of_isInt32 ⟨by omega, by omega⟩
  rw [hput]
  refine ⟨⟨s.list.addSize 1, m₅⟩, ⟨0, fun fuel _ => ?_⟩, ⟨hs.head, hholds, ?_, ?_, ?_,
    nodup_insert ((h, 0) :: xs) hs.distinct (hs.not_mem ha)⟩, fun b hb => ?_⟩
  · simp only [DListCall.exec, hnew, Option.bind_eq_bind, Option.bind_some, insBefore,
      Mem.read_eq hp₁, Mem.read_eq hp₃, lastOf_cons, hprevious, hnext, hlast, hfirst,
      Option.pure_def]
  · simpa [DList.addSize] using hs.tail
  · rw [DList.addSize, hs.size, hsize]
    simp [add_assoc]
  · simp only [List.length_append, List.length_cons] at hfits ⊢
    omega
  · obtain ⟨hb, hba⟩ := not_mem_of_insert _ hb
    exact (hrest₅ b hb).trans (hrest₃ b hba)

/-- **`Remove` drops the last node.** -/
lemma remove_spec (hs : Linked h s L) :
    ∃ s', DListCall.Yields .remove s (L.getLast?.map Prod.fst) s' ∧ Linked h s' L.dropLast
      ∧ ∀ b ∉ h :: L.dropLast.map Prod.fst, s'.mem b = s.mem b := by
  by_cases hL : L = []
  · subst hL
    refine ⟨s, ⟨0, fun fuel _ => ?_⟩, hs, fun b _ => rfl⟩
    show remove s.list s.mem = _
    rw [remove, if_pos (hs.isEmpty_iff.mpr rfl)]
    rfl
  · obtain ⟨xs, ⟨b, y⟩, rfl⟩ : ∃ xs c, L = xs ++ [c] :=
      ⟨_, _, (List.dropLast_append_getLast hL).symm⟩
    have hempty : isEmpty s.list ≠ true := mt hs.isEmpty_iff.mp hL
    have htail : s.list.tail = some b := by rw [hs.tail, lastOf_append, lastOf_cons, lastOf_nil]
    have hold := hs.holds
    have hdistinct := hs.distinct
    rw [← List.cons_append, chain_append, Mem.holds_append] at hold
    have hb := (Mem.holds_cons.mp hold.2).1
    rw [← List.cons_append, List.map_append, List.nodup_append'] at hdistinct
    obtain ⟨hfront, -, hdisjoint⟩ := hdistinct
    obtain ⟨m', hlast, hfront', hrest⟩ := hold.1.relinkLast hfront (by simp) none
    have hb' := (hrest b fun hmem => hdisjoint hmem (by simp)).trans hb
    rw [lastOf_cons] at hlast
    refine ⟨⟨(s.list.setTail (lastOf (some h) xs)).addSize (-1), m'⟩, ⟨0, fun fuel _ => ?_⟩, ?_⟩
    · show remove s.list s.mem = _
      rw [remove, if_neg hempty, htail]
      simp only [Mem.read_eq hb, Mem.read_eq hb', lastOf_cons, firstOf_nil, hlast,
        Option.bind_eq_bind, Option.bind_some, Option.pure_def]
      simp
    · rw [List.dropLast_concat]
      have hsize := hs.size
      have hbounded := hs.bounded
      rw [List.length_append, List.length_singleton] at hsize hbounded
      have hsize' : toInt32 (s.list.size + -1) = xs.length := by
        rw [hsize, toInt32]
        omega
      exact ⟨⟨hs.head, hfront', rfl, hsize', by omega, hfront⟩, hrest⟩

/-- The loop of `LocatePos` walks to the place it is given. -/
lemma locateLoop_eq {m : Mem Node} {N : List (ℕ × ℤ)} (hm : m.Holds (chain none N none)) {i j : ℕ}
    (hij : j ≤ i) (hi : i < N.length) (hint : i < 2147483647) {fuel : ℕ} (hfuel : i - j < fuel) :
    locateLoop i m fuel j (N.map Prod.fst)[j]? = some (N.map Prod.fst)[i]? := by
  induction fuel generalizing j with
  | zero => omega
  | succ fuel ih =>
      have hcnt : toInt32 (j + 1) = (j + 1 : ℕ) := by
        rw [toInt32]
        omega
      obtain ⟨a, ha⟩ : ∃ a, (N.map Prod.fst)[j]? = some a :=
        ⟨_, List.getElem?_eq_getElem (by rw [List.length_map]; omega)⟩
      rw [locateLoop, hcnt]
      rcases hij.eq_or_lt with rfl | hlt
      · rw [if_neg (by omega)]
      · rw [if_pos (by omega), ha, read_next hm ha, Option.bind_eq_bind, Option.bind_some]
        exact ih hlt (by omega)

/-- **`LocatePos` gives the node at a place.** -/
lemma locatePos_spec (hs : Linked h s L) {i : ℤ} (hfits : i < 2147483647 ∨ L.length < 2147483647) :
    DListCall.Yields (.locatePos i) s (DListCall.result L (.locatePos i)) s := by
  have hbounded := hs.bounded
  refine ⟨L.length + 1, fun fuel hfuel => ?_⟩
  show (locatePos fuel s.list i s.mem).bind (fun p => some (p, s.list, s.mem)) = _
  rw [locatePos, hs.size, DListCall.result]
  by_cases hout : i > L.length ∨ i < 1
  · rw [if_pos hout]
    by_cases hi : 1 ≤ i
    · rw [if_pos hi, List.getElem?_eq_none (by omega)]
      rfl
    · rw [if_neg hi]
      rfl
  · obtain ⟨j, rfl⟩ : ∃ j : ℕ, i = (j + 1 : ℕ) := ⟨(i - 1).toNat, by omega⟩
    have hj : j < L.length := by omega
    have hwalk := locateLoop_eq hs.holds (Nat.zero_le (j + 1)) (by simpa using hj) (by omega)
      (show j + 1 - 0 < fuel by omega)
    rw [if_neg hout, if_pos (by omega), hs.head]
    refine (congrArg (fun o => Option.bind o _) hwalk).trans ?_
    simp

/-! ### All calls -/

/-- **One call** does to the chain what it does to the sequence, returns what it is to return, and
leaves alone every node that is not in the list. -/
lemma DListCall.simulates (hs : Linked h s L) (hproper : c.Proper L) (hfits : c.Fits L)
    (hfresh : c.Fresh s.mem) :
    ∃ s', c.Yields s (c.result L) s' ∧ Linked h s' (c.apply L)
      ∧ ∀ b ∉ h :: (c.apply L).map Prod.fst, s'.mem b = s.mem b := by
  cases c with
  | insFirst i a junk => exact insFirst_spec hs hfits hfresh i junk
  | insBefore p i a junk => exact insBefore_spec hs hfits hproper hfresh i junk
  | remove => exact remove_spec hs
  | locatePos i => exact ⟨s, locatePos_spec hs hfits, hs, fun b _ => rfl⟩

/-- A call that returns has got a fresh address. -/
lemma DListStep.fresh (hstep : DListStep s c s') : c.Fresh s.mem := by
  obtain ⟨p, N, hN⟩ := hstep
  have e : c.exec N s = some (p, s'.list, s'.mem) := hN N le_rfl
  have hmalloc : ∀ i a junk, (makeNode i a junk s.mem).isSome → s.mem a = none := by
    intro i a junk hsome
    by_contra hne
    obtain ⟨n, hn⟩ := Option.ne_none_iff_exists'.mp hne
    simp [makeNode, Mem.malloc, hn] at hsome
  cases c with
  | insFirst i a junk =>
      obtain ⟨r, hr, -⟩ := Option.bind_eq_some_iff.mp e
      exact hmalloc i a junk (Option.isSome_of_eq_some hr)
  | insBefore p i a junk =>
      obtain ⟨r, hr, -⟩ := Option.bind_eq_some_iff.mp e
      exact hmalloc i a junk (Option.isSome_of_eq_some hr)
  | remove => trivial
  | locatePos i => trivial

/-- A step takes a chain to a chain. -/
lemma Linked.step (hs : Linked h s L) (hproper : c.Proper L) (hfits : c.Fits L)
    (hstep : DListStep s c s') : Linked h s' (c.apply L) := by
  obtain ⟨s'', hyields, hs'', -⟩ := DListCall.simulates hs hproper hfits hstep.fresh
  obtain ⟨p, hp⟩ := hstep
  obtain ⟨-, hlist, hmem⟩ := Prod.ext_iff.mp (hp.unique hyields) |>.imp_right Prod.ext_iff.mp
  have heq : s' = s'' := by
    cases s'
    cases s''
    exact congrArg₂ DListState.mk hlist hmem
  exact heq ▸ hs''

end Wgs
