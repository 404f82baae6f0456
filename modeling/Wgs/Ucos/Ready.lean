import Wgs.Foundation.LinkFamily
import Wgs.Ucos.Prio

/-!
`uCOS-III/Source/os_core.c`: the lists of the tasks that are ready.

`OSRdyList` has a list for each priority, of task control blocks that are linked by `NextPtr` and
`PrevPtr`.  These two fields of all the blocks are a memory of their own.  `IsRdy` says which tasks
the lists have; the functions change one of the lists, and `OSPrioTbl` marks those that are not
empty.
-/

namespace Wgs.Ucos

open Foundation

/-- `OS_RDY_LIST` -/
structure OsRdyList where
  headPtr : Ptr
  tailPtr : Ptr
  nbrEntries : ℕ
  deriving DecidableEq

/-- `OSPrioTbl`, `OSRdyList`, and the links `NextPtr` and `PrevPtr` of the tasks. -/
structure RdyLists (cfg : Config) where
  osPrioTbl : PrioTbl cfg
  osRdyList : Cells OsRdyList
  links : Links

section Functions

variable {cfg : Config}

/-- `OS_RdyListInit`, over any earlier contents. -/
def osRdyListInit (cfg : Config) : Cells OsRdyList := List.replicate cfg.prioMax ⟨none, none, 0⟩

/-- `OS_RdyListInsertHead` for a task of the priority `prio`. -/
def osRdyListInsertHead (prio pTcb : ℕ) (s : RdyLists cfg) : Option (RdyLists cfg) := do
  let pRdyList ← s.osRdyList.load prio
  if pRdyList.nbrEntries = 0 then
    let links ← s.links.modify (some pTcb) fun n => (n.setNext none).setPrevious none
    let osRdyList ← s.osRdyList.store prio ⟨some pTcb, some pTcb, 1⟩
    return { s with osRdyList := osRdyList, links := links }
  else
    let links ← s.links.modify (some pTcb) fun n => (n.setNext pRdyList.headPtr).setPrevious none
    let links ← links.modify pRdyList.headPtr (LinkNode.setPrevious (some pTcb))
    let osRdyList ← s.osRdyList.store prio
      { pRdyList with headPtr := some pTcb, nbrEntries := qtyAdd pRdyList.nbrEntries 1 }
    return { s with osRdyList := osRdyList, links := links }

/-- `OS_RdyListInsertTail` for a task of the priority `prio`. -/
def osRdyListInsertTail (prio pTcb : ℕ) (s : RdyLists cfg) : Option (RdyLists cfg) := do
  let pRdyList ← s.osRdyList.load prio
  if pRdyList.nbrEntries = 0 then
    let links ← s.links.modify (some pTcb) fun n => (n.setNext none).setPrevious none
    let osRdyList ← s.osRdyList.store prio ⟨some pTcb, some pTcb, 1⟩
    return { s with osRdyList := osRdyList, links := links }
  else
    let links ← s.links.modify (some pTcb) fun n => (n.setNext none).setPrevious pRdyList.tailPtr
    let links ← links.modify pRdyList.tailPtr (LinkNode.setNext (some pTcb))
    let osRdyList ← s.osRdyList.store prio
      { pRdyList with tailPtr := some pTcb, nbrEntries := qtyAdd pRdyList.nbrEntries 1 }
    return { s with osRdyList := osRdyList, links := links }

/-- `OS_RdyListMoveHeadToTail` of the list of the priority `prio`. -/
def osRdyListMoveHeadToTail (prio : ℕ) (s : RdyLists cfg) : Option (RdyLists cfg) := do
  let pRdyList ← s.osRdyList.load prio
  match pRdyList.nbrEntries with
  | 0 => return s
  | 1 => return s
  | 2 =>
      let pTcb1 := pRdyList.headPtr
      let pTcb2 := pRdyList.tailPtr
      let links ← s.links.modify pTcb1 fun n => (n.setPrevious pTcb2).setNext none
      let links ← links.modify pTcb2 fun n => (n.setPrevious none).setNext pTcb1
      let osRdyList ← s.osRdyList.store prio { pRdyList with headPtr := pTcb2, tailPtr := pTcb1 }
      return { s with osRdyList := osRdyList, links := links }
  | _ =>
      let pTcb1 := pRdyList.headPtr
      let pTcb2 := pRdyList.tailPtr
      let pTcb3 ← s.links.read pTcb1 LinkNode.next
      let links ← s.links.modify pTcb3 (LinkNode.setPrevious none)
      let links ← links.modify pTcb1 fun n => (n.setNext none).setPrevious pTcb2
      let links ← links.modify pTcb2 (LinkNode.setNext pTcb1)
      let osRdyList ← s.osRdyList.store prio { pRdyList with headPtr := pTcb3, tailPtr := pTcb1 }
      return { s with osRdyList := osRdyList, links := links }

/-- `OS_RdyListRemove`, the cases: the neighbours of a task, if any, are linked to each other. -/
def rdyListUnlink (prio : ℕ) (pRdyList : OsRdyList) (pTcb1 pTcb2 : Ptr) (s : RdyLists cfg) :
    Option (RdyLists cfg) :=
  if pTcb1 = none then
    if pTcb2 = none then do
      let osRdyList ← s.osRdyList.store prio ⟨none, none, 0⟩
      let osPrioTbl ← osPrioRemove cfg prio s.osPrioTbl
      return { s with osPrioTbl := osPrioTbl, osRdyList := osRdyList }
    else do
      let links ← s.links.modify pTcb2 (LinkNode.setPrevious none)
      let osRdyList ← s.osRdyList.store prio
        { pRdyList with headPtr := pTcb2, nbrEntries := qtySub pRdyList.nbrEntries 1 }
      return { s with osRdyList := osRdyList, links := links }
  else do
    let links ← s.links.modify pTcb1 (LinkNode.setNext pTcb2)
    if pTcb2 = none then
      let osRdyList ← s.osRdyList.store prio
        { pRdyList with tailPtr := pTcb1, nbrEntries := qtySub pRdyList.nbrEntries 1 }
      return { s with osRdyList := osRdyList, links := links }
    else
      let links ← links.modify pTcb2 (LinkNode.setPrevious pTcb1)
      let osRdyList ← s.osRdyList.store prio
        { pRdyList with nbrEntries := qtySub pRdyList.nbrEntries 1 }
      return { s with osRdyList := osRdyList, links := links }

/-- `OS_RdyListRemove` for a task of the priority `prio`. -/
def osRdyListRemove (prio pTcb : ℕ) (s : RdyLists cfg) : Option (RdyLists cfg) := do
  let pRdyList ← s.osRdyList.load prio
  let pTcb1 ← s.links.read (some pTcb) LinkNode.previous
  let pTcb2 ← s.links.read (some pTcb) LinkNode.next
  let s ← rdyListUnlink prio pRdyList pTcb1 pTcb2 s
  let links ← s.links.modify (some pTcb) fun n => (n.setPrevious none).setNext none
  return { s with links := links }

end Functions

/-! ### The tasks of the lists -/

variable {cfg : Config}

/-- The lists have the tasks `L`, in this order, and the table has the priorities `S`.  The tasks
with links are those of `dom`. -/
structure IsRdy (dom : Set ℕ) (s : RdyLists cfg) (L : ℕ → List ℕ) (S : Set ℕ) : Prop where
  family : LinkFamily s.links L
  alloc : ∀ t ∈ dom, s.links t ≠ none
  length : s.osRdyList.length = cfg.prioMax
  list : ∀ p < cfg.prioMax, s.osRdyList[p]? = some ⟨(L p).head?, (L p).getLast?, (L p).length⟩
  outside : ∀ p, cfg.prioMax ≤ p → L p = []
  prio : IsPrioTbl s.osPrioTbl S

namespace IsRdy

variable {dom : Set ℕ} {s : RdyLists cfg} {L : ℕ → List ℕ} {S : Set ℕ} {p t : ℕ}

lemma load (h : IsRdy dom s L S) (hp : p < cfg.prioMax) :
    s.osRdyList.load p = some ⟨(L p).head?, (L p).getLast?, (L p).length⟩ := by
  rw [Cells.load_natCast, h.list p hp]

lemma store (h : IsRdy dom s L S) (hp : p < cfg.prioMax) (v : OsRdyList) :
    s.osRdyList.store p v = some (s.osRdyList.set p v) := Cells.store_natCast (h.length ▸ hp) v

/-- One list changes, in the links and in the table of the lists. -/
lemma change (h : IsRdy dom s L S) (hp : p < cfg.prioMax) {tbl : PrioTbl cfg} {links : Links}
    {K : List ℕ} {S' : Set ℕ} (hfamily : LinkFamily links (Function.update L p K))
    (halloc : ∀ a, s.links a ≠ none → links a ≠ none) (hprio : IsPrioTbl tbl S') :
    IsRdy dom ⟨tbl, s.osRdyList.set p ⟨K.head?, K.getLast?, K.length⟩, links⟩
      (Function.update L p K) S' where
  family := hfamily
  alloc a ha := halloc a (h.alloc a ha)
  length := by rw [List.length_set, h.length]
  list q hq := by
    rcases eq_or_ne q p with rfl | hne
    · rw [Function.update_self, List.getElem?_set_self (h.length ▸ hq)]
    · rw [Function.update_of_ne hne, List.getElem?_set_ne hne.symm, h.list q hq]
  outside q hq := by
    rw [Function.update_of_ne (by omega), h.outside q hq]
  prio := hprio

/-- **A task goes in front of the tasks of its priority.** -/
lemma insertHead (h : IsRdy dom s L S) (hp : p < cfg.prioMax) (ht : t ∈ dom)
    (hnew : ∀ q, t ∉ L q) (hlen : (L p).length + 1 < 65536) :
    ∃ s', osRdyListInsertHead p t s = some s'
      ∧ IsRdy dom s' (Function.update L p (t :: L p)) S := by
  obtain ⟨n, hn⟩ := Option.ne_none_iff_exists'.mp (h.alloc t ht)
  cases hL : L p with
  | nil =>
      obtain ⟨m, hm, htm, hrest⟩ :=
        Mem.modify_spec hn fun n => (n.setNext none).setPrevious none
      refine ⟨{ s with osRdyList := s.osRdyList.set p ⟨some t, some t, 1⟩, links := m },
        by simp [osRdyListInsertHead, h.load hp, hL, hm, h.store hp], ?_⟩
      refine h.change hp (h.family.insert [] [] hL hnew htm (by simp) (by simp)
        fun b hb _ _ => hrest b hb) (fun a ha => Mem.modify_ne_none hm ha) h.prio
  | cons a M =>
      have hat : a ≠ t := by
        rintro rfl
        exact hnew p (hL ▸ List.mem_cons_self)
      obtain ⟨m₁, hm₁, ht₁, hrest₁⟩ :=
        Mem.modify_spec hn fun n => (n.setNext (some a)).setPrevious none
      have ha := h.family.node [] hL
      obtain ⟨m₂, hm₂, ha₂, hrest₂⟩ :=
        Mem.modify_spec ((hrest₁ a hat).trans ha) (LinkNode.setPrevious (some t))
      have hqty : qtyAdd (M.length + 1) 1 = M.length + 1 + 1 := by
        rw [hL, List.length_cons] at hlen
        exact Nat.mod_eq_of_lt hlen
      refine ⟨{ s with osRdyList := s.osRdyList.set p ⟨some t, (t :: a :: M).getLast?,
          (t :: a :: M).length⟩, links := m₂ },
        by simp [osRdyListInsertHead, h.load hp, hL, hm₁, hm₂, h.store hp, hqty], ?_⟩
      refine h.change hp (h.family.insert [] (a :: M) hL hnew ?_ (by simp)
        (fun b hb => ?_) fun b hb _ hba => ?_) (fun b hb => ?_) h.prio
      · rw [hrest₂ t hat.symm, ht₁]
        rfl
      · obtain rfl : a = b := by simpa using hb
        rw [ha₂, ha]
        rfl
      · have hne : b ≠ a := fun heq => hba (by simp [heq])
        rw [hrest₂ b hne, hrest₁ b hb]
      · exact Mem.modify_ne_none hm₂ (Mem.modify_ne_none hm₁ hb)

/-- **A task goes behind the tasks of its priority.** -/
lemma insertTail (h : IsRdy dom s L S) (hp : p < cfg.prioMax) (ht : t ∈ dom)
    (hnew : ∀ q, t ∉ L q) (hlen : (L p).length + 1 < 65536) :
    ∃ s', osRdyListInsertTail p t s = some s'
      ∧ IsRdy dom s' (Function.update L p (L p ++ [t])) S := by
  obtain ⟨n, hn⟩ := Option.ne_none_iff_exists'.mp (h.alloc t ht)
  rcases (L p).eq_nil_or_concat with hL | ⟨M, a, hL⟩
  · obtain ⟨m, hm, htm, hrest⟩ :=
      Mem.modify_spec hn fun n => (n.setNext none).setPrevious none
    refine ⟨{ s with osRdyList := s.osRdyList.set p ⟨some t, some t, 1⟩, links := m },
      by simp [osRdyListInsertTail, h.load hp, hL, hm, h.store hp], ?_⟩
    rw [hL]
    exact h.change hp (h.family.insert [] [] hL hnew htm (by simp) (by simp)
      fun b hb _ _ => hrest b hb) (fun a ha => Mem.modify_ne_none hm ha) h.prio
  · rw [List.concat_eq_append] at hL
    have hat : a ≠ t := by
      rintro rfl
      exact hnew p (by simp [hL])
    obtain ⟨m₁, hm₁, ht₁, hrest₁⟩ :=
      Mem.modify_spec hn fun n => (n.setNext none).setPrevious (some a)
    have ha := h.family.node M hL
    obtain ⟨m₂, hm₂, ha₂, hrest₂⟩ :=
      Mem.modify_spec ((hrest₁ a hat).trans ha) (LinkNode.setNext (some t))
    have hqty : qtyAdd (M.length + 1) 1 = M.length + 1 + 1 := by
      rw [hL, List.length_append] at hlen
      exact Nat.mod_eq_of_lt hlen
    refine ⟨{ s with osRdyList := s.osRdyList.set p ⟨(L p ++ [t]).head?, (L p ++ [t]).getLast?,
        (L p ++ [t]).length⟩, links := m₂ }, ?_, ?_⟩
    · have hhead : (M ++ [a]).head? = (M ++ [a] ++ [t]).head? := by cases M <;> rfl
      simp [osRdyListInsertTail, h.load hp, hL, hm₁, hm₂, h.store hp, hqty, hhead]
    refine h.change hp (h.family.insert (L p) [] (by simp) hnew ?_ (fun b hb => ?_)
      (by simp) fun b hb hba _ => ?_) (fun b hb => ?_) h.prio
    · rw [hrest₂ t hat.symm, ht₁, hL, List.getLast?_concat]
      rfl
    · obtain rfl : a = b := by simpa [hL] using hb
      rw [ha₂, ha]
      rfl
    · have hne : b ≠ a := fun heq => hba (by simp [hL, heq])
      rw [hrest₂ b hne, hrest₁ b hb]
    · exact Mem.modify_ne_none hm₂ (Mem.modify_ne_none hm₁ hb)

/-- The first task of a list becomes the last one. -/
lemma moveHeadToTail (h : IsRdy dom s L S) (hp : p < cfg.prioMax) :
    ∃ s', osRdyListMoveHeadToTail p s = some s'
      ∧ IsRdy dom s' (Function.update L p ((L p).rotate 1)) S := by
  have hsame : ∀ {M}, L p = M → M.rotate 1 = M → osRdyListMoveHeadToTail p s = some s →
      ∃ s', osRdyListMoveHeadToTail p s = some s'
        ∧ IsRdy dom s' (Function.update L p ((L p).rotate 1)) S := by
    intro M hM hrotate hmove
    refine ⟨s, hmove, ?_⟩
    rw [hM, hrotate, ← hM, Function.update_eq_self]
    exact h
  match hL : L p with
  | [] =>
      rw [← hL]
      exact hsame hL (by simp) (by simp [osRdyListMoveHeadToTail, h.load hp, hL])
  | [a] =>
      rw [← hL]
      exact hsame hL (by simp) (by simp [osRdyListMoveHeadToTail, h.load hp, hL])
  | [a, b] =>
      have hnodup := h.family.nodup p
      have hab : a ≠ b := by
        rw [hL] at hnodup
        simpa using hnodup
      have ha := h.family.node [] hL
      have hb := h.family.node [a] hL
      obtain ⟨m₁, hm₁, ha₁, hrest₁⟩ :=
        Mem.modify_spec ha fun n => (n.setPrevious (some b)).setNext none
      obtain ⟨m₂, hm₂, hb₂, hrest₂⟩ :=
        Mem.modify_spec ((hrest₁ b hab.symm).trans hb)
          fun n => (n.setPrevious none).setNext (some a)
      refine ⟨{ s with osRdyList := s.osRdyList.set p ⟨some b, some a, 2⟩, links := m₂ },
        by simp [osRdyListMoveHeadToTail, h.load hp, hL, hm₁, hm₂, h.store hp], ?_⟩
      refine h.change (K := [b, a]) hp (h.family.rotate hL ?_ (fun c hc hcb => ?_) (fun _ => ?_)
        (absurd rfl) fun c hca hcb _ => ?_)
        (fun c hc => Mem.modify_ne_none hm₂ (Mem.modify_ne_none hm₁ hc)) h.prio
      · rw [hrest₂ a hab, ha₁]
        rfl
      · simp [hcb.symm] at hc
      · rw [hb₂, hb]
        rfl
      · rw [hrest₂ c hcb, hrest₁ c hca]
  | a :: b :: c :: M =>
      obtain ⟨K, d, hK⟩ := (List.eq_nil_or_concat (c :: M)).resolve_left (List.cons_ne_nil c M)
      rw [List.concat_eq_append] at hK
      have hlen : (c :: M).length = K.length + 1 := by rw [hK, List.length_append]; rfl
      have hnodup := h.family.nodup p
      simp only [hL, hK, List.nodup_cons, List.mem_cons, List.mem_append, not_or,
        List.not_mem_nil] at hnodup
      obtain ⟨⟨hab, -, had, -⟩, ⟨-, hbd, -⟩, -⟩ := hnodup
      have ha := h.family.node [] hL
      have hb := h.family.node [a] hL
      have hLd : L p = (a :: b :: K) ++ d :: [] := by rw [hL, hK]; rfl
      have hd := h.family.node (a :: b :: K) hLd
      obtain ⟨m₁, hm₁, hb₁, hrest₁⟩ := Mem.modify_spec hb (LinkNode.setPrevious none)
      obtain ⟨m₂, hm₂, ha₂, hrest₂⟩ := Mem.modify_spec ((hrest₁ a hab).trans ha) fun n =>
        (n.setNext none).setPrevious (some d)
      obtain ⟨m₃, hm₃, hd₃, hrest₃⟩ := Mem.modify_spec
        (((hrest₂ d (Ne.symm had)).trans (hrest₁ d (Ne.symm hbd))).trans hd)
        (LinkNode.setNext (some a))
      have hlast : (b :: c :: M).getLast? = some d := by
        rw [hK]
        exact List.getLast?_append_of_ne_nil (b :: K) (List.cons_ne_nil d [])
      refine ⟨{ s with osRdyList := s.osRdyList.set p ⟨some b, some a, M.length + 3⟩, links := m₃ },
        ?_, ?_⟩
      · have hload := h.load hp
        rw [hL] at hload
        simp only [List.head?_cons, List.length_cons, hlast, List.getLast?_cons_cons] at hload
        simp [osRdyListMoveHeadToTail, hload, Mem.read_eq ha, hm₁, hm₂, hm₃, h.store hp]
      · have hlast' : (b :: c :: M ++ [a]).getLast? = some a := List.getLast?_concat
        have hlen' : (b :: c :: M ++ [a]).length = M.length + 3 := by simp
        rw [← hlast', ← hlen']
        refine h.change hp (h.family.rotate hL ?_ (fun e he heb => ?_) (fun hbad => ?_)
          (fun _ => ?_) fun e hea heb hed => ?_)
          (fun e he => Mem.modify_ne_none hm₃ (Mem.modify_ne_none hm₂ (Mem.modify_ne_none hm₁ he)))
          h.prio
        · rw [hrest₃ a had, ha₂, hlast]
          rfl
        · obtain rfl : d = e := by simpa [hlast] using he
          rw [hd₃, hd]
          rfl
        · exact absurd (Option.some_inj.mp (hlast.symm.trans hbad)).symm hbd
        · rw [hrest₃ b hbd, hrest₂ b (Ne.symm hab), hb₁, hb]
          rfl
        · have hne : e ≠ d := fun heq => hed (heq ▸ hlast)
          rw [hrest₃ e hne, hrest₂ e hea, hrest₁ e heb]

/-- **A task leaves the list of its priority**, which is marked no more if it was the last one. -/
lemma remove (h : IsRdy dom s L S) (hp : p < cfg.prioMax) {xs ys : List ℕ}
    (hL : L p = xs ++ t :: ys) (hlen : (L p).length < 65536) :
    ∃ s', osRdyListRemove p t s = some s'
      ∧ IsRdy dom s' (Function.update L p (xs ++ ys)) (if xs ++ ys = [] then S \ {p} else S) := by
  have ht := h.family.node xs hL
  have hload := h.load hp
  have hqty : qtySub (L p).length 1 = (xs ++ ys).length := by
    rw [hL] at hlen ⊢
    simp only [qtySub, List.length_append, List.length_cons] at hlen ⊢
    omega
  obtain ⟨m₁, m₂, hnil, hfront, hback, hjoin⟩ := h.family.join hL
  obtain ⟨links, hlinks, hfamily, halloc⟩ := h.family.takeOut hL hjoin fun n =>
    (n.setPrevious none).setNext none
  -- the cases only write what `hfront` and `hback` write
  have hunlink : ∃ tbl, IsPrioTbl tbl (if xs ++ ys = [] then S \ {p} else S)
      ∧ rdyListUnlink p ⟨(L p).head?, (L p).getLast?, (L p).length⟩ xs.getLast? ys.head? s
        = some ⟨tbl, s.osRdyList.set p ⟨(xs ++ ys).head?, (xs ++ ys).getLast?, (xs ++ ys).length⟩,
            m₂⟩ := by
    rcases xs.eq_nil_or_concat with rfl | ⟨xs, a, rfl⟩
    · obtain rfl := hnil rfl
      cases ys with
      | nil =>
          obtain rfl := Option.some_inj.mp hback
          obtain ⟨tbl, htbl, hprio⟩ := h.prio.remove hp
          refine ⟨tbl, by simpa using hprio, ?_⟩
          simp [rdyListUnlink, h.store hp, htbl]
      | cons b ys =>
          have hlast : (L p).getLast? = (b :: ys).getLast? := by rw [hL]; rfl
          rw [List.head?_cons, List.getLast?_nil, Mem.backLink_some] at hback
          refine ⟨s.osPrioTbl, by simpa using h.prio, ?_⟩
          simp [rdyListUnlink, hback, h.store hp, hqty, hlast]
    · rw [List.concat_eq_append] at *
      have hne : xs ++ [a] ++ ys ≠ [] := by simp
      have hhead : (L p).head? = (xs ++ [a] ++ ys).head? := by
        rw [hL]
        cases xs <;> rfl
      have hm₁ := hfront a List.getLast?_concat
      refine ⟨s.osPrioTbl, by rw [if_neg hne]; exact h.prio, ?_⟩
      cases ys with
      | nil =>
          obtain rfl := Option.some_inj.mp hback
          have hlast : (xs ++ [a]).getLast? = some a := List.getLast?_concat
          rw [List.head?_nil] at hm₁
          simp [rdyListUnlink, hm₁, h.store hp, hqty, hhead, hlast]
      | cons b ys =>
          have hlast : (L p).getLast? = (xs ++ [a] ++ b :: ys).getLast? := by
            rw [hL, List.getLast?_append_of_ne_nil _ (List.cons_ne_nil t (b :: ys)),
              List.getLast?_append_of_ne_nil _ (List.cons_ne_nil b ys), List.getLast?_cons_cons]
          rw [List.head?_cons] at hm₁ hback
          rw [List.getLast?_concat, Mem.backLink_some] at hback
          simp [rdyListUnlink, hm₁, hback, h.store hp, hqty, hhead, hlast]
  obtain ⟨tbl, hprio, hunlink⟩ := hunlink
  refine ⟨⟨tbl, s.osRdyList.set p ⟨(xs ++ ys).head?, (xs ++ ys).getLast?, (xs ++ ys).length⟩,
    links⟩, ?_, h.change hp hfamily halloc hprio⟩
  simp [osRdyListRemove, hload, Mem.read_eq ht, hunlink, hlinks]

end IsRdy

end Wgs.Ucos
