import Wgs.Foundation.LinkFamily
import Wgs.Ucos.Config

/-!
`uCOS-III/Source/os_core.c`: the lists of the tasks that wait.

A task that waits for an object is in the list of the object through an `OS_PEND_DATA`, by the
priority of the task, and behind the tasks of the same priority.  The links of all the
`OS_PEND_DATA` are a memory of their own.  `IsPend` says which ones the lists have.
-/

namespace Wgs.Ucos

open Foundation

/-- `OS_PEND_LIST` -/
structure OsPendList where
  headPtr : Ptr
  tailPtr : Ptr
  nbrEntries : ℕ
  deriving DecidableEq

/-- The lists of the objects, and the links `NextPtr` and `PrevPtr` of the `OS_PEND_DATA`. -/
structure PendLists where
  lists : Mem OsPendList
  links : Links

/-- `OS_PendListInit` for the object at `o`. -/
def osPendListInit (o : ℕ) (s : PendLists) : Option PendLists :=
  (s.lists.modify (some o) fun _ => ⟨none, none, 0⟩).map fun lists => { s with lists := lists }

/-- The loop of `OS_PendListInsertPrio`, which ends within `NbrEntries` steps: the first one of a
lower priority.  `prioOf` is `TCBPtr->Prio`. -/
def findLower (prioOf : ℕ → Option ℕ) (prio : ℕ) (links : Links) : ℕ → Ptr → Option Ptr
  | _, none => some none
  | 0, some _ => none
  | n + 1, some pPendDataNext => do
      let prioNext ← prioOf pPendDataNext
      if prio < prioNext then some (some pPendDataNext)
      else do
        let next ← links.read (some pPendDataNext) LinkNode.next
        findLower prioOf prio links n next

/-- `OS_PendListInsertPrio` into the list of the object at `o`. -/
def osPendListInsertPrio (prioOf : ℕ → Option ℕ) (o pPendData : ℕ) (s : PendLists) :
    Option PendLists := do
  let prio ← prioOf pPendData
  let pPendList ← s.lists.load (some o)
  if pPendList.nbrEntries = 0 then
    let links ← s.links.modify (some pPendData) fun n => (n.setNext none).setPrevious none
    let lists ← s.lists.modify (some o) fun _ => ⟨some pPendData, some pPendData, 1⟩
    return ⟨lists, links⟩
  else
    let nbrEntries := qtyAdd pPendList.nbrEntries 1
    let pPendDataNext ← findLower prioOf prio s.links nbrEntries pPendList.headPtr
    if pPendDataNext = none then
      let pPendDataPrev := pPendList.tailPtr
      let links ← s.links.modify (some pPendData) fun n =>
        (n.setNext none).setPrevious pPendDataPrev
      let links ← links.modify pPendDataPrev (LinkNode.setNext (some pPendData))
      let lists ← s.lists.modify (some o) fun l =>
        { l with tailPtr := some pPendData, nbrEntries := nbrEntries }
      return ⟨lists, links⟩
    else
      let pPendDataPrev ← s.links.read pPendDataNext LinkNode.previous
      if pPendDataPrev = none then
        let links ← s.links.modify pPendDataNext (LinkNode.setPrevious (some pPendData))
        let links ← links.modify (some pPendData) fun n =>
          (n.setPrevious none).setNext pPendDataNext
        let lists ← s.lists.modify (some o) fun l =>
          { l with headPtr := some pPendData, nbrEntries := nbrEntries }
        return ⟨lists, links⟩
      else
        let links ← s.links.modify (some pPendData) fun n =>
          (n.setPrevious pPendDataPrev).setNext pPendDataNext
        let links ← links.modify pPendDataPrev (LinkNode.setNext (some pPendData))
        let links ← links.modify pPendDataNext (LinkNode.setPrevious (some pPendData))
        let lists ← s.lists.modify (some o) fun l => { l with nbrEntries := nbrEntries }
        return ⟨lists, links⟩

/-- `OS_PendListRemove1`, the cases: the list and the links. -/
def pendListUnlink (pPendList : OsPendList) (prev next : Ptr) (links : Links) :
    Option (OsPendList × Links) :=
  if pPendList.nbrEntries = 1 then some ({ pPendList with headPtr := none, tailPtr := none }, links)
  else if prev = none then do
    let links ← links.modify next (LinkNode.setPrevious none)
    return ({ pPendList with headPtr := next }, links)
  else if next = none then do
    let links ← links.modify prev (LinkNode.setNext none)
    return ({ pPendList with tailPtr := prev }, links)
  else do
    let links ← links.modify prev (LinkNode.setNext next)
    let links ← links.modify next (LinkNode.setPrevious prev)
    return (pPendList, links)

/-- `OS_PendListRemove1` from the list of the object at `o`. -/
def osPendListRemove1 (o pPendData : ℕ) (s : PendLists) : Option PendLists := do
  let pPendList ← s.lists.load (some o)
  let prev ← s.links.read (some pPendData) LinkNode.previous
  let next ← s.links.read (some pPendData) LinkNode.next
  let (pPendList, links) ← pendListUnlink pPendList prev next s.links
  let links ← links.modify (some pPendData) fun n => (n.setNext none).setPrevious none
  let lists ← s.lists.modify (some o) fun _ =>
    { pPendList with nbrEntries := qtySub pPendList.nbrEntries 1 }
  return ⟨lists, links⟩

/-! ### The waiting tasks of the lists -/

/-- The list of the object at `o` has the `OS_PEND_DATA` of `L o`, in this order, if the list was
initialised, as it was for the objects of `objs`.  There are lists for the objects of `mem`, and
links for the `OS_PEND_DATA` of `dom`. -/
structure IsPend (mem dom objs : Set ℕ) (s : PendLists) (L : ℕ → List ℕ) : Prop where
  family : LinkFamily s.links L
  alloc : ∀ d ∈ dom, s.links d ≠ none
  memory : ∀ o ∈ mem, s.lists o ≠ none
  list : ∀ o ∈ objs, s.lists o = some ⟨(L o).head?, (L o).getLast?, (L o).length⟩

/-- The search ends at the first one of a lower priority, if there is one. -/
lemma findLower_eq {prioOf : ℕ → Option ℕ} {f : ℕ → ℕ} (prio : ℕ) {n : ℕ} {links : Links} {p : Ptr}
    {L : List ℕ} (h : links.Holds (chain p (Foundation.cells L) none))
    (hprio : ∀ d ∈ L, prioOf d = some (f d)) (hn : L.length ≤ n) :
    findLower prioOf prio links n L.head? = some (L.dropWhile fun d => f d ≤ prio).head? := by
  induction L generalizing n p with
  | nil => cases n <;> rfl
  | cons d L ih =>
      obtain ⟨n, rfl⟩ : ∃ k, n = k + 1 := ⟨n - 1, by simp at hn; omega⟩
      rw [cells_cons, chain_cons, Mem.holds_cons, firstOf_cells] at h
      have hrest := ih h.2 (fun e he => hprio e (List.mem_cons_of_mem d he)) (by simpa using hn)
      rw [List.head?_cons, findLower, hprio d List.mem_cons_self, List.dropWhile_cons]
      by_cases hlt : prio < f d
      · simp [hlt, not_le.mpr hlt]
      · simp [hlt, not_lt.mp hlt, Mem.read_eq h.1, hrest]

namespace IsPend

variable {mem dom objs : Set ℕ} {s : PendLists} {L : ℕ → List ℕ} {o d : ℕ}

/-- One list changes, in the links and in the list of its object. -/
lemma change (h : IsPend mem dom objs s L) {lists : Mem OsPendList} {links : Links} {K : List ℕ}
    (hfamily : LinkFamily links (Function.update L o K))
    (halloc : ∀ a, s.links a ≠ none → links a ≠ none)
    (hlist : lists o = some ⟨K.head?, K.getLast?, K.length⟩)
    (hrest : ∀ q, q ≠ o → lists q = s.lists q) :
    IsPend mem dom objs ⟨lists, links⟩ (Function.update L o K) where
  family := hfamily
  alloc a ha := halloc a (h.alloc a ha)
  memory q hq := by
    rcases eq_or_ne q o with rfl | hne
    · exact fun hnone => Option.some_ne_none _ (hlist.symm.trans hnone)
    · exact fun hnone => h.memory q hq ((hrest q hne).symm.trans hnone)
  list q hq := by
    rcases eq_or_ne q o with rfl | hne
    · rw [Function.update_self]
      exact hlist
    · rw [Function.update_of_ne hne, ← h.list q hq]
      exact hrest q hne

/-- The list of an object is initialised. -/
lemma init (h : IsPend mem dom objs s L) (ho : o ∈ mem) (hL : L o = []) :
    ∃ s', osPendListInit o s = some s' ∧ IsPend mem dom (insert o objs) s' L := by
  obtain ⟨l, hl⟩ := Option.ne_none_iff_exists'.mp (h.memory o ho)
  obtain ⟨lists, hlists, hset, hrest⟩ :=
    Mem.modify_spec hl fun _ => (⟨none, none, 0⟩ : OsPendList)
  refine ⟨{ s with lists := lists }, by simp [osPendListInit, hlists], h.family, h.alloc,
    fun q hq => Mem.modify_ne_none hlists (h.memory q hq), fun q hq => ?_⟩
  rcases eq_or_ne q o with rfl | hne
  · rw [hL]
    exact hset
  · exact (hrest q hne).trans (h.list q (Set.mem_of_mem_insert_of_ne hq hne))

/-- The links of an `OS_PEND_DATA` that is in no list are reset. -/
lemma reset (h : IsPend mem dom objs s L) (hd : d ∈ dom) (hnew : ∀ o, d ∉ L o) :
    ∃ links, s.links.modify (some d) (fun n => (n.setNext none).setPrevious none) = some links
      ∧ IsPend mem dom objs { s with links := links } L := by
  obtain ⟨n, hn⟩ := Option.ne_none_iff_exists'.mp (h.alloc d hd)
  obtain ⟨links, hlinks, -, hrest⟩ := Mem.modify_spec hn fun n => (n.setNext none).setPrevious none
  exact ⟨links, hlinks, h.family.frame fun o b hb => hrest b (ne_of_mem_of_not_mem hb (hnew o)),
    fun a ha => Mem.modify_ne_none hlinks (h.alloc a ha), h.memory, h.list⟩

/-- **A task is put in front of the first one of a lower priority.** -/
lemma insertPrio (h : IsPend mem dom objs s L) (ho : o ∈ objs) (hd : d ∈ dom) (hnew : ∀ q, d ∉ L q)
    {prioOf : ℕ → Option ℕ} {f : ℕ → ℕ} (hprio : ∀ e ∈ d :: L o, prioOf e = some (f e))
    (hlen : (L o).length + 1 < 65536) :
    ∃ s', osPendListInsertPrio prioOf o d s = some s'
      ∧ IsPend mem dom objs s'
        (Function.update L o (placeBehind (fun e => f e ≤ f d) d (L o))) := by
  obtain ⟨n, hn⟩ := Option.ne_none_iff_exists'.mp (h.alloc d hd)
  have hlist := h.list o ho
  have hpriod := hprio d List.mem_cons_self
  have hqty : qtyAdd (L o).length 1 = (L o).length + 1 := Nat.mod_eq_of_lt hlen
  have hfind := findLower_eq (f d) (h.family.linked o)
    (fun e he => hprio e (List.mem_cons_of_mem d he)) (Nat.le_succ (L o).length)
  obtain ⟨xs, hxs⟩ : ∃ xs, (L o).takeWhile (fun e => f e ≤ f d) = xs := ⟨_, rfl⟩
  obtain ⟨ys, hys⟩ : ∃ ys, (L o).dropWhile (fun e => f e ≤ f d) = ys := ⟨_, rfl⟩
  have hL : L o = xs ++ ys := by rw [← hxs, ← hys, List.takeWhile_append_dropWhile]
  have hplace : placeBehind (fun e => f e ≤ f d) d (L o) = xs ++ d :: ys := by
    rw [placeBehind, hxs, hys]
  rw [hys] at hfind
  rw [hplace]
  have hnot := hnew o
  rw [hL, List.mem_append, not_or] at hnot
  -- what is left to show when the links are written
  have hfinish : ∀ (m : Links) (l : OsPendList), m d = some ⟨(), xs.getLast?, ys.head?⟩ →
      (∀ b, xs.getLast? = some b → m b = (s.links b).map (LinkNode.setNext (some d))) →
      (∀ b, ys.head? = some b → m b = (s.links b).map (LinkNode.setPrevious (some d))) →
      (∀ b, b ≠ d → xs.getLast? ≠ some b → ys.head? ≠ some b → m b = s.links b) →
      l = ⟨(xs ++ d :: ys).head?, (xs ++ d :: ys).getLast?, (L o).length + 1⟩ →
      osPendListInsertPrio prioOf o d s = some ⟨Function.update s.lists o (some l), m⟩ →
      ∃ s', osPendListInsertPrio prioOf o d s = some s'
        ∧ IsPend mem dom objs s' (Function.update L o (xs ++ d :: ys)) := by
    intro m l hmd hlast hfirst hrest hl hinsert
    refine ⟨_, hinsert, h.change (h.family.insert xs ys hL hnew hmd hlast hfirst hrest)
      (fun b hb => ?_) ?_ fun q hq => Function.update_of_ne hq _ _⟩
    · rcases eq_or_ne b d with rfl | hbd
      · simp [hmd]
      · by_cases hbl : xs.getLast? = some b
        · simpa [hlast b hbl] using hb
        · by_cases hbf : ys.head? = some b
          · simpa [hfirst b hbf] using hb
          · rwa [hrest b hbd hbl hbf]
    · rw [Function.update_self, hl, ← hplace, length_placeBehind]
  rcases xs.eq_nil_or_concat with rfl | ⟨xs, a, rfl⟩
  · cases ys with
    | nil =>
        obtain ⟨m, hm, hdm, hrest⟩ :=
          Mem.modify_spec hn fun n => (n.setNext none).setPrevious none
        refine hfinish m ⟨some d, some d, 1⟩ hdm (by simp) (by simp) (fun b hb _ _ => hrest b hb)
          (by simp [hL]) ?_
        simp [osPendListInsertPrio, hpriod, hlist, hL, hm, Mem.modify_eq hlist]
    | cons b ys =>
        have hb := h.family.node [] hL
        have hdb : d ≠ b := fun heq => hnot.2 (by simp [heq])
        obtain ⟨m₁, hm₁, hb₁, hrest₁⟩ := Mem.modify_spec hb (LinkNode.setPrevious (some d))
        obtain ⟨m₂, hm₂, hd₂, hrest₂⟩ := Mem.modify_spec ((hrest₁ d hdb).trans hn) fun n =>
          (n.setPrevious none).setNext (some b)
        refine hfinish m₂ ⟨some d, (L o).getLast?, (L o).length + 1⟩ hd₂ (by simp) (fun c hc => ?_)
          (fun c hcd _ hcb => ?_) ?_ ?_
        · obtain rfl : b = c := by simpa using hc
          rw [hrest₂ b hdb.symm, hb₁, hb]
          rfl
        · rw [hrest₂ c hcd, hrest₁ c fun heq => hcb (by simp [heq])]
        · simp [hL, List.getLast?_cons_cons]
        · have hpos : (L o).length ≠ 0 := by simp [hL]
          simp [osPendListInsertPrio, hpriod, hlist, hpos, hqty, hfind, Mem.read_eq hb, hm₁, hm₂,
            Mem.modify_eq hlist]
  · rw [List.concat_eq_append] at *
    have hda : d ≠ a := fun heq => hnot.1 (by simp [heq])
    have hpos : (L o).length ≠ 0 := by simp [hL]
    have hhead : (L o).head? = (xs ++ [a] ++ d :: ys).head? := by
      rw [hL]
      cases xs <;> rfl
    cases ys with
    | nil =>
        have ha := h.family.node xs (by simpa using hL : L o = xs ++ a :: [])
        have htail : (L o).getLast? = some a := by rw [hL, List.append_nil, List.getLast?_concat]
        obtain ⟨m₁, hm₁, hd₁, hrest₁⟩ :=
          Mem.modify_spec hn fun n => (n.setNext none).setPrevious (some a)
        obtain ⟨m₂, hm₂, ha₂, hrest₂⟩ :=
          Mem.modify_spec ((hrest₁ a hda.symm).trans ha) (LinkNode.setNext (some d))
        refine hfinish m₂ ⟨(L o).head?, some d, (L o).length + 1⟩ ?_ (fun c hc => ?_) (by simp)
          (fun c hcd hca _ => ?_) ?_ ?_
        · rw [hrest₂ d hda, hd₁, List.getLast?_concat]
          rfl
        · obtain rfl : a = c := by simpa using hc
          rw [ha₂, ha]
          rfl
        · rw [hrest₂ c fun heq => hca (by simp [heq]), hrest₁ c hcd]
        · rw [hhead, List.getLast?_concat]
        · rw [List.head?_nil] at hfind
          simp [osPendListInsertPrio, hpriod, hlist, hpos, hqty, hfind, htail, hm₁, hm₂,
            Mem.modify_eq hlist]
    | cons b ys =>
        have ha := h.family.node xs (by simpa using hL : L o = xs ++ a :: b :: ys)
        have hb := h.family.node (xs ++ [a]) hL
        have hdb : d ≠ b := fun heq => hnot.2 (by simp [heq])
        have hba : b ≠ a := by
          have hnodup := h.family.nodup o
          rw [hL, List.nodup_append'] at hnodup
          exact fun heq => hnodup.2.2 (by simp : a ∈ xs ++ [a]) (by simp [heq])
        obtain ⟨m₁, hm₁, hd₁, hrest₁⟩ :=
          Mem.modify_spec hn fun n => (n.setPrevious (some a)).setNext (some b)
        obtain ⟨m₂, hm₂, ha₂, hrest₂⟩ :=
          Mem.modify_spec ((hrest₁ a hda.symm).trans ha) (LinkNode.setNext (some d))
        obtain ⟨m₃, hm₃, hb₃, hrest₃⟩ := Mem.modify_spec
          (((hrest₂ b hba).trans (hrest₁ b hdb.symm)).trans hb) (LinkNode.setPrevious (some d))
        refine hfinish m₃ ⟨(L o).head?, (L o).getLast?, (L o).length + 1⟩ ?_ (fun c hc => ?_)
          (fun c hc => ?_) (fun c hcd hca hcb => ?_) ?_ ?_
        · rw [hrest₃ d hdb, hrest₂ d hda, hd₁, List.getLast?_concat]
          rfl
        · obtain rfl : a = c := by simpa using hc
          rw [hrest₃ a hba.symm, ha₂, ha]
          rfl
        · obtain rfl : b = c := by simpa using hc
          rw [hb₃, hb]
          rfl
        · rw [hrest₃ c fun heq => hcb (by simp [heq]), hrest₂ c fun heq => hca (by simp [heq]),
            hrest₁ c hcd]
        · rw [hhead]
          rw [hL, List.getLast?_append_of_ne_nil _ (List.cons_ne_nil b ys),
            List.getLast?_append_of_ne_nil _ (List.cons_ne_nil d (b :: ys)),
            List.getLast?_cons_cons]
        · rw [List.head?_cons] at hfind
          rw [List.getLast?_concat] at hb
          simp [osPendListInsertPrio, hpriod, hlist, hpos, hqty, hfind, Mem.read_eq hb, hm₁, hm₂,
            hm₃, Mem.modify_eq hlist]

/-- **A task leaves a list.** -/
lemma remove1 (h : IsPend mem dom objs s L) (ho : o ∈ objs) {xs ys : List ℕ}
    (hL : L o = xs ++ d :: ys) (hlen : (L o).length < 65536) :
    ∃ s', osPendListRemove1 o d s = some s'
      ∧ IsPend mem dom objs s' (Function.update L o (xs ++ ys)) := by
  have hd := h.family.node xs hL
  have hlist := h.list o ho
  have hcount : (L o).length = xs.length + ys.length + 1 := by
    rw [hL, List.length_append, List.length_cons, Nat.add_assoc]
  have hqty : qtySub (L o).length 1 = (xs ++ ys).length := by
    rw [qtySub, List.length_append]
    omega
  obtain ⟨m₁, m₂, hnil, hfront, hback, hjoin⟩ := h.family.join hL
  obtain ⟨links, hlinks, hfamily, halloc⟩ := h.family.takeOut hL hjoin fun n =>
    (n.setNext none).setPrevious none
  -- the cases only write what `hfront` and `hback` write
  have hunlink : pendListUnlink ⟨(L o).head?, (L o).getLast?, (L o).length⟩ xs.getLast? ys.head?
      s.links = some (⟨(xs ++ ys).head?, (xs ++ ys).getLast?, (L o).length⟩, m₂) := by
    rcases xs.eq_nil_or_concat with rfl | ⟨xs, a, rfl⟩
    · obtain rfl := hnil rfl
      cases ys with
      | nil =>
          obtain rfl := Option.some_inj.mp hback
          simp [pendListUnlink, hL]
      | cons b ys =>
          have hone : (L o).length ≠ 1 := by rw [hcount, List.length_cons]; omega
          have hlast : (L o).getLast? = (b :: ys).getLast? := by rw [hL]; rfl
          rw [List.head?_cons, List.getLast?_nil, Mem.backLink_some] at hback
          simp [pendListUnlink, hone, hback, hlast]
    · rw [List.concat_eq_append] at *
      have hone : (L o).length ≠ 1 := by
        rw [hcount, List.length_append, List.length_singleton]
        omega
      have hhead : (L o).head? = (xs ++ [a] ++ ys).head? := by
        rw [hL]
        cases xs <;> rfl
      have hm₁ := hfront a List.getLast?_concat
      cases ys with
      | nil =>
          obtain rfl := Option.some_inj.mp hback
          rw [List.head?_nil] at hm₁
          simp [pendListUnlink, hone, hm₁, hhead]
      | cons b ys =>
          have hlast : (L o).getLast? = (xs ++ [a] ++ b :: ys).getLast? := by
            rw [hL, List.getLast?_append_of_ne_nil _ (List.cons_ne_nil d (b :: ys)),
              List.getLast?_append_of_ne_nil _ (List.cons_ne_nil b ys), List.getLast?_cons_cons]
          rw [List.head?_cons] at hm₁ hback
          rw [List.getLast?_concat, Mem.backLink_some] at hback
          simp [pendListUnlink, hone, hm₁, hback, hhead, hlast]
  refine ⟨⟨Function.update s.lists o (some ⟨(xs ++ ys).head?, (xs ++ ys).getLast?,
      (xs ++ ys).length⟩), links⟩, ?_, h.change hfamily halloc (Function.update_self _ _ _)
        fun q hq => Function.update_of_ne hq _ _⟩
  simp [osPendListRemove1, hlist, Mem.read_eq hd, hunlink, hlinks, hqty, Mem.modify_eq hlist]

end IsPend

end Wgs.Ucos
