import Wgs.Foundation.Placement
import Wgs.Ucos.Kernel
import Wgs.Ucos.PendList
import Wgs.Ucos.Ready

/-!
The machines that execute the commands of the kernel.

`Machine` has the ready lists, the lists of the waiting tasks and the tick wheel as the sources have
them, with pointers; an access that is not there is a fault.  `Queues` has plain lists instead, and
refuses a command that makes no sense for them.  Every command that `Queues` serves is served by
`Machine` (`machine_simulates`), and so is every program.
-/

namespace Wgs.Ucos

open Foundation

/-- The memory that the application provides: for the `OS_TCB`s, the `OS_SEM`s and the
`OS_PEND_DATA`.  Tasks are counted in an `OS_OBJ_QTY`. -/
structure Space where
  tcbs : Finset ℕ
  card_tcbs_lt : tcbs.card < 65536
  sems : Set ℕ
  frames : Set ℕ

/-! ### The machine with pointers -/

/-- What the kernel shares, and its lists. -/
structure Machine (cfg : Config) where
  shared : Shared
  rdy : RdyLists cfg
  pend : PendLists
  tick : TickLists

namespace Shared

/-- `TCBPtr->Prio` of an `OS_PEND_DATA`. -/
def prioOf (s : Shared) (pPendData : ℕ) : Option ℕ :=
  (s.pendData pPendData).bind fun e => (s.tcb e.tcbPtr).map OsTcb.prio

/-- `TickCtrMatch` of a task. -/
def matchOf (s : Shared) (pTcb : ℕ) : Option Tick := (s.tcb pTcb).map OsTcb.tickCtrMatch

end Shared

namespace Machine

variable {cfg : Config}

/-- A command is executed on the lists of the sources. -/
def exec : (c : Cmd) → Machine cfg → Option (c.Reply × Machine cfg)
  | .get, s => some (s.shared, s)
  | .set shared, s => some ((), { s with shared := shared })
  | .fail, _ => none
  | .prioGetHighest, s => (osPrioGetHighest cfg s.rdy.osPrioTbl).map fun p => (p, s)
  | .rdyHead prio, s => (s.rdy.osRdyList.load prio).map fun l => (l.headPtr, s)
  | .rdyEntries prio, s => (s.rdy.osRdyList.load prio).map fun l => (l.nbrEntries, s)
  | .prioInsertHead prio pTcb, s =>
      (osPrioInsert cfg prio s.rdy.osPrioTbl).bind fun tbl =>
        (osRdyListInsertHead prio pTcb { s.rdy with osPrioTbl := tbl }).map fun rdy =>
          ((), { s with rdy := rdy })
  | .prioInsertTail prio pTcb, s =>
      (osPrioInsert cfg prio s.rdy.osPrioTbl).bind fun tbl =>
        (osRdyListInsertTail prio pTcb { s.rdy with osPrioTbl := tbl }).map fun rdy =>
          ((), { s with rdy := rdy })
  | .rdyMoveHeadToTail prio, s =>
      (osRdyListMoveHeadToTail prio s.rdy).map fun rdy => ((), { s with rdy := rdy })
  | .rdyRemove prio pTcb, s =>
      (osRdyListRemove prio pTcb s.rdy).map fun rdy => ((), { s with rdy := rdy })
  | .pendHead pObj, s => (s.pend.lists.load (some pObj)).map fun l => (l.headPtr, s)
  | .pendEntries pObj, s => (s.pend.lists.load (some pObj)).map fun l => (l.nbrEntries, s)
  | .pendNext pPendData, s =>
      (s.pend.links.read (some pPendData) LinkNode.next).map fun next => (next, s)
  | .pendInit pObj, s => (osPendListInit pObj s.pend).map fun pend => ((), { s with pend := pend })
  | .pendDataReset pPendData, s =>
      (s.pend.links.modify (some pPendData) fun n => (n.setNext none).setPrevious none).map
        fun links => ((), { s with pend := { s.pend with links := links } })
  | .pendInsertPrio pObj pPendData, s =>
      (osPendListInsertPrio s.shared.prioOf pObj pPendData s.pend).map fun pend =>
        ((), { s with pend := pend })
  | .pendRemove1 pObj pPendData, s =>
      (osPendListRemove1 pObj pPendData s.pend).map fun pend => ((), { s with pend := pend })
  | .tickFirst spoke, s => (s.tick.wheel.load spoke).map fun l => (l.firstPtr, s)
  | .tickEntries spoke, s => (s.tick.wheel.load spoke).map fun l => (l.nbrEntries, s)
  | .tickNext pTcb, s => (s.tick.links.read (some pTcb) LinkNode.next).map fun next => (next, s)
  | .tickRemain pTcb remain, s =>
      (s.tick.tickRemain.modify (some pTcb) fun _ => remain).map fun tickRemain =>
        ((), { s with tick := { s.tick with tickRemain := tickRemain } })
  | .tickLink pTcb spoke remain, s =>
      (s.tick.tickRemain.modify (some pTcb) fun _ => remain).bind fun tickRemain =>
        (tickListLink s.shared.matchOf s.shared.osTickCtr pTcb spoke
          { s.tick with tickRemain := tickRemain }).map fun tick => ((), { s with tick := tick })
  | .tickUnlink pTcb spoke, s =>
      (tickListUnlink pTcb spoke s.tick).map fun tick => ((), { s with tick := tick })

end Machine

/-! ### The machine with lists -/

/-- What the kernel shares, and its lists: the tasks that are ready by priority, the `OS_PEND_DATA`
that wait by object, and the tasks of the spokes.  The list of an object is there from its
creation on. -/
structure Queues where
  shared : Shared
  rdy : ℕ → List ℕ
  pend : ℕ → List ℕ
  spoke : ℕ → List ℕ
  listed : Set ℕ

/-- The element behind one of a list. -/
def nextIn (L : List ℕ) (a : ℕ) : Option ℕ := (L.dropWhile fun b => b ≠ a).tail.head?

lemma nextIn_append {xs ys : List ℕ} {a : ℕ} (ha : a ∉ xs) :
    nextIn (xs ++ a :: ys) a = ys.head? := by
  rw [nextIn, List.dropWhile_append_of_pos fun b hb => ?_]
  · simp
  · simpa using ne_of_mem_of_not_mem hb ha

lemma nextIn_cons (a : ℕ) (ys : List ℕ) : nextIn (a :: ys) a = ys.head? :=
  nextIn_append List.not_mem_nil

open Classical in
/-- A value that is given under a condition. -/
noncomputable def given {α : Type} (p : Prop) (a : α) : Option α := if p then some a else none

@[simp] lemma given_eq_some {α : Type} {p : Prop} {a b : α} :
    given p a = some b ↔ p ∧ a = b := by
  rw [given]
  split_ifs with hp <;> simp [hp]

lemma given_of {α : Type} {p : Prop} (hp : p) (a : α) : given p a = some a := if_pos hp

namespace Queues

/-- Where a task goes in the list of a spoke. -/
def insertTick (s : Queues) (pTcb spoke : ℕ) (remain : Tick) : List ℕ :=
  placeBehind (fun a => (s.shared.matchOf a).getD 0 - s.shared.osTickCtr < remain) pTcb
    (s.spoke spoke)

/-- Where an `OS_PEND_DATA` goes in the list of an object. -/
def insertPend (s : Queues) (pObj pPendData : ℕ) : List ℕ :=
  placeBehind (fun e => (s.shared.prioOf e).getD 0 ≤ (s.shared.prioOf pPendData).getD 0) pPendData
    (s.pend pObj)

open Classical in
/-- A command is executed on lists. -/
noncomputable def exec (cfg : Config) (space : Space) :
    (c : Cmd) → Queues → Option (c.Reply × Queues)
  | .get, s => some (s.shared, s)
  | .set shared, s => some ((), { s with shared := shared })
  | .fail, _ => none
  | .prioGetHighest, s => if h : ∃ p, s.rdy p ≠ [] then some (Nat.find h, s) else none
  | .rdyHead prio, s => given (prio < cfg.prioMax) ((s.rdy prio).head?, s)
  | .rdyEntries prio, s => given (prio < cfg.prioMax) ((s.rdy prio).length, s)
  | .prioInsertHead prio pTcb, s =>
      given (prio < cfg.prioMax ∧ pTcb ∈ space.tcbs ∧ ∀ p, pTcb ∉ s.rdy p)
        ((), { s with rdy := Function.update s.rdy prio (pTcb :: s.rdy prio) })
  | .prioInsertTail prio pTcb, s =>
      given (prio < cfg.prioMax ∧ pTcb ∈ space.tcbs ∧ ∀ p, pTcb ∉ s.rdy p)
        ((), { s with rdy := Function.update s.rdy prio (s.rdy prio ++ [pTcb]) })
  | .rdyMoveHeadToTail prio, s =>
      given (prio < cfg.prioMax)
        ((), { s with rdy := Function.update s.rdy prio ((s.rdy prio).rotate 1) })
  | .rdyRemove prio pTcb, s =>
      given (pTcb ∈ s.rdy prio) ((), { s with rdy := fun p => (s.rdy p).erase pTcb })
  | .pendHead pObj, s => given (pObj ∈ s.listed) ((s.pend pObj).head?, s)
  | .pendEntries pObj, s => given (pObj ∈ s.listed) ((s.pend pObj).length, s)
  | .pendNext pPendData, s =>
      (s.shared.pendData pPendData).bind fun e =>
        given (pPendData ∈ s.pend e.pendObjPtr) (nextIn (s.pend e.pendObjPtr) pPendData, s)
  | .pendInit pObj, s =>
      given (pObj ∈ space.sems ∧ s.pend pObj = []) ((), { s with listed := insert pObj s.listed })
  | .pendDataReset pPendData, s =>
      given (pPendData ∈ space.frames ∧ ∀ o, pPendData ∉ s.pend o) ((), s)
  | .pendInsertPrio pObj pPendData, s =>
      given (pObj ∈ s.listed ∧ pPendData ∈ space.frames ∧ (∀ o, pPendData ∉ s.pend o)
          ∧ (∀ e ∈ pPendData :: s.pend pObj, s.shared.prioOf e ≠ none)
          ∧ (s.pend pObj).length + 1 < 65536)
        ((), { s with pend := Function.update s.pend pObj (s.insertPend pObj pPendData) })
  | .pendRemove1 pObj pPendData, s =>
      given (pObj ∈ s.listed ∧ pPendData ∈ s.pend pObj)
        ((), { s with pend := fun o => (s.pend o).erase pPendData })
  | .tickFirst spoke, s => given (spoke < cfg.tickWheelSize) ((s.spoke spoke).head?, s)
  | .tickEntries spoke, s => given (spoke < cfg.tickWheelSize) ((s.spoke spoke).length, s)
  | .tickNext pTcb, s =>
      (s.shared.tcb pTcb).bind fun x => x.tickSpokePtr.bind fun spoke =>
        given (pTcb ∈ s.spoke spoke) (nextIn (s.spoke spoke) pTcb, s)
  | .tickRemain pTcb _, s => given (pTcb ∈ space.tcbs) ((), s)
  | .tickLink pTcb spoke remain, s =>
      given (spoke < cfg.tickWheelSize ∧ pTcb ∈ space.tcbs ∧ (∀ i, pTcb ∉ s.spoke i)
          ∧ ∀ a ∈ s.spoke spoke, s.shared.tcb a ≠ none)
        ((), { s with spoke := Function.update s.spoke spoke (s.insertTick pTcb spoke remain) })
  | .tickUnlink pTcb spoke, s =>
      given (pTcb ∈ s.spoke spoke) ((), { s with spoke := fun i => (s.spoke i).erase pTcb })

end Queues

/-! ### The simulation -/

variable {cfg : Config} {space : Space}

/-- The lists of the machine are those of the queues. -/
structure Refines (space : Space) (s : Machine cfg) (t : Queues) : Prop where
  shared : s.shared = t.shared
  rdy : IsRdy space.tcbs s.rdy t.rdy {p | t.rdy p ≠ []}
  rdy_mem : ∀ p, ∀ a ∈ t.rdy p, a ∈ space.tcbs
  pend : IsPend space.sems space.frames t.listed s.pend t.pend
  pend_length : ∀ o, (t.pend o).length < 65536
  tick : IsTick cfg space.tcbs s.tick t.spoke
  tick_mem : ∀ i, ∀ a ∈ t.spoke i, a ∈ space.tcbs

/-- A list of tasks is short. -/
lemma Space.length_lt (space : Space) {L : List ℕ} (hnodup : L.Nodup)
    (hmem : ∀ a ∈ L, a ∈ space.tcbs) : L.length < 65536 := by
  refine lt_of_le_of_lt ?_ space.card_tcbs_lt
  rw [← List.toFinset_card_of_nodup hnodup]
  exact Finset.card_le_card fun a ha => hmem a (List.mem_toFinset.mp ha)

/-- One more task fits into a list. -/
lemma Space.length_succ_lt (space : Space) {L : List ℕ} {t : ℕ} (hnodup : L.Nodup)
    (hmem : ∀ a ∈ L, a ∈ space.tcbs) (ht : t ∈ space.tcbs) (hnew : t ∉ L) :
    L.length + 1 < 65536 := by
  refine space.length_lt (L := t :: L) (List.nodup_cons.mpr ⟨hnew, hnodup⟩) fun a ha => ?_
  rcases List.mem_cons.mp ha with rfl | ha
  · exact ht
  · exact hmem a ha

namespace Refines

variable {s : Machine cfg} {t : Queues}

/-- A task is put into a ready list, by a function that does so. -/
private lemma insertRdy (h : Refines space s t) {p a : ℕ} {K : List ℕ} (hK : K.Perm (a :: t.rdy p))
    (hp : p < cfg.prioMax) (ha : a ∈ space.tcbs)
    {f : RdyLists cfg → Option (RdyLists cfg)}
    (hf : ∀ (r : RdyLists cfg) (S : Set ℕ), IsRdy (space.tcbs : Set ℕ) r t.rdy S →
      ∃ r', f r = some r' ∧ IsRdy (space.tcbs : Set ℕ) r' (Function.update t.rdy p K) S) :
    ∃ tbl rdy, osPrioInsert cfg p s.rdy.osPrioTbl = some tbl
      ∧ f { s.rdy with osPrioTbl := tbl } = some rdy
      ∧ Refines space { s with rdy := rdy } { t with rdy := Function.update t.rdy p K } := by
  obtain ⟨tbl, htbl, hprio⟩ := h.rdy.prio.insert hp
  obtain ⟨rdy, hrdy, hrel⟩ := hf { s.rdy with osPrioTbl := tbl } _
    ⟨h.rdy.family, h.rdy.alloc, h.rdy.length, h.rdy.list, h.rdy.outside, hprio⟩
  refine ⟨tbl, rdy, htbl, hrdy, h.shared, ?_, forall_mem_update h.rdy_mem fun b hb => ?_, h.pend,
    h.pend_length, h.tick, h.tick_mem⟩
  · convert hrel using 1
    ext q
    rcases eq_or_ne q p with rfl | hq
    · have hne : K ≠ [] := fun hnil => by simp [hnil] at hK
      simp [hne]
    · simp [hq]
  · rcases List.mem_cons.mp (hK.mem_iff.mp hb) with rfl | hb
    · exact ha
    · exact h.rdy_mem p b hb

lemma prioInsertHead (h : Refines space s t) {p a : ℕ} (hp : p < cfg.prioMax) (ha : a ∈ space.tcbs)
    (hnew : ∀ q, a ∉ t.rdy q) :
    ∃ s', s.exec (.prioInsertHead p a) = some ((), s')
      ∧ Refines space s' { t with rdy := Function.update t.rdy p (a :: t.rdy p) } := by
  obtain ⟨tbl, rdy, htbl, hrdy, hrel⟩ := h.insertRdy (.refl _) hp ha fun r S hr =>
    hr.insertHead hp ha hnew
      (space.length_succ_lt (h.rdy.family.nodup p) (h.rdy_mem p) ha (hnew p))
  exact ⟨_, by simp [Machine.exec, htbl, hrdy], hrel⟩

lemma prioInsertTail (h : Refines space s t) {p a : ℕ} (hp : p < cfg.prioMax) (ha : a ∈ space.tcbs)
    (hnew : ∀ q, a ∉ t.rdy q) :
    ∃ s', s.exec (.prioInsertTail p a) = some ((), s')
      ∧ Refines space s' { t with rdy := Function.update t.rdy p (t.rdy p ++ [a]) } := by
  obtain ⟨tbl, rdy, htbl, hrdy, hrel⟩ :=
    h.insertRdy (List.perm_append_singleton a (t.rdy p)) hp ha fun r S hr =>
      hr.insertTail hp ha hnew
        (space.length_succ_lt (h.rdy.family.nodup p) (h.rdy_mem p) ha (hnew p))
  exact ⟨_, by simp [Machine.exec, htbl, hrdy], hrel⟩

lemma prioGetHighest (h : Refines space s t) {p : ℕ}
    (hp : IsLeast {p | t.rdy p ≠ []} p) : s.exec .prioGetHighest = some (p, s) := by
  have hhighest := (h.rdy.prio.getHighest.1 p).mpr hp
  simp [Machine.exec, hhighest]

lemma rdyMoveHeadToTail (h : Refines space s t) {p : ℕ} (hp : p < cfg.prioMax) :
    ∃ s', s.exec (.rdyMoveHeadToTail p) = some ((), s')
      ∧ Refines space s' { t with rdy := Function.update t.rdy p ((t.rdy p).rotate 1) } := by
  obtain ⟨rdy, hrdy, hrel⟩ := h.rdy.moveHeadToTail hp
  refine ⟨{ s with rdy := rdy }, by simp [Machine.exec, hrdy], h.shared, ?_,
    forall_mem_update h.rdy_mem fun b hb => h.rdy_mem p b (List.mem_rotate.mp hb), h.pend,
    h.pend_length, h.tick, h.tick_mem⟩
  convert hrel using 1
  ext q
  rcases eq_or_ne q p with rfl | hq
  · simp
  · simp [hq]

lemma rdyRemove (h : Refines space s t) {p a : ℕ} (ha : a ∈ t.rdy p) :
    ∃ s', s.exec (.rdyRemove p a) = some ((), s')
      ∧ Refines space s' { t with rdy := fun q => (t.rdy q).erase a } := by
  have hp : p < cfg.prioMax := by
    by_contra hle
    rw [h.rdy.outside p (not_lt.mp hle)] at ha
    exact List.not_mem_nil ha
  obtain ⟨xs, ys, hL, hx⟩ := List.eq_append_cons_of_mem ha
  obtain ⟨rdy, hrdy, hrel⟩ := h.rdy.remove hp hL
    (space.length_lt (h.rdy.family.nodup p) (h.rdy_mem p))
  have herase := h.rdy.family.erase_eq hL hx
  refine ⟨{ s with rdy := rdy }, by simp [Machine.exec, hrdy], h.shared, ?_, fun q b hb => ?_,
    h.pend, h.pend_length, h.tick, h.tick_mem⟩
  · rw [herase]
    convert hrel using 1
    ext q
    rcases eq_or_ne q p with rfl | hq
    · split_ifs with hnil <;> simp [hnil, hL]
    · split_ifs <;> simp [hq]
  · exact h.rdy_mem q b (List.mem_of_mem_erase hb)

lemma pendHead (h : Refines space s t) {o : ℕ} (ho : o ∈ t.listed) :
    s.pend.lists.load (some o) = some ⟨(t.pend o).head?, (t.pend o).getLast?, (t.pend o).length⟩ :=
  h.pend.list o ho

lemma pendNext (h : Refines space s t) {o d : ℕ} (hd : d ∈ t.pend o) :
    s.exec (.pendNext d) = some (nextIn (t.pend o) d, s) := by
  obtain ⟨xs, ys, hL, hx⟩ := List.eq_append_cons_of_mem hd
  simp [Machine.exec, Mem.read_eq (h.pend.family.node xs hL), hL, nextIn_append hx]

lemma pendInit (h : Refines space s t) {o : ℕ} (ho : o ∈ space.sems) (hL : t.pend o = []) :
    ∃ s', s.exec (.pendInit o) = some ((), s')
      ∧ Refines space s' { t with listed := insert o t.listed } := by
  obtain ⟨pend, hpend, hrel⟩ := h.pend.init ho hL
  exact ⟨{ s with pend := pend }, by simp [Machine.exec, hpend], h.shared, h.rdy, h.rdy_mem, hrel,
    h.pend_length, h.tick, h.tick_mem⟩

lemma pendDataReset (h : Refines space s t) {d : ℕ} (hd : d ∈ space.frames)
    (hnew : ∀ o, d ∉ t.pend o) :
    ∃ s', s.exec (.pendDataReset d) = some ((), s') ∧ Refines space s' t := by
  obtain ⟨links, hlinks, hrel⟩ := h.pend.reset hd hnew
  exact ⟨{ s with pend := { s.pend with links := links } }, by simp [Machine.exec, hlinks],
    h.shared, h.rdy, h.rdy_mem, hrel, h.pend_length, h.tick, h.tick_mem⟩

lemma pendInsertPrio (h : Refines space s t) {o d : ℕ} (ho : o ∈ t.listed) (hd : d ∈ space.frames)
    (hnew : ∀ q, d ∉ t.pend q) (hprio : ∀ e ∈ d :: t.pend o, t.shared.prioOf e ≠ none)
    (hlen : (t.pend o).length + 1 < 65536) :
    ∃ s', s.exec (.pendInsertPrio o d) = some ((), s')
      ∧ Refines space s' { t with pend := Function.update t.pend o (t.insertPend o d) } := by
  have hprio' : ∀ e ∈ d :: t.pend o, t.shared.prioOf e = some ((t.shared.prioOf e).getD 0) := by
    intro e he
    obtain ⟨v, hv⟩ := Option.ne_none_iff_exists'.mp (hprio e he)
    rw [hv, Option.getD_some]
  obtain ⟨pend, hpend, hrel⟩ := h.pend.insertPrio ho hd hnew hprio' hlen
  refine ⟨{ s with pend := pend }, by simp [Machine.exec, h.shared, hpend], h.shared, h.rdy,
    h.rdy_mem, hrel, fun q => ?_, h.tick, h.tick_mem⟩
  rcases eq_or_ne q o with rfl | hq
  · simpa [Queues.insertPend, length_placeBehind] using hlen
  · simpa [hq] using h.pend_length q

lemma pendRemove1 (h : Refines space s t) {o d : ℕ} (ho : o ∈ t.listed) (hd : d ∈ t.pend o) :
    ∃ s', s.exec (.pendRemove1 o d) = some ((), s')
      ∧ Refines space s' { t with pend := fun q => (t.pend q).erase d } := by
  obtain ⟨xs, ys, hL, hx⟩ := List.eq_append_cons_of_mem hd
  obtain ⟨pend, hpend, hrel⟩ := h.pend.remove1 ho hL (h.pend_length o)
  rw [← h.pend.family.erase_eq hL hx] at hrel
  exact ⟨{ s with pend := pend }, by simp [Machine.exec, hpend], h.shared, h.rdy, h.rdy_mem, hrel,
    fun q => lt_of_le_of_lt List.length_erase_le (h.pend_length q), h.tick, h.tick_mem⟩

lemma tickNext (h : Refines space s t) {i a : ℕ} (ha : a ∈ t.spoke i) :
    s.exec (.tickNext a) = some (nextIn (t.spoke i) a, s) := by
  obtain ⟨xs, ys, hL, hx⟩ := List.eq_append_cons_of_mem ha
  simp [Machine.exec, Mem.read_eq (h.tick.family.node xs hL), hL, nextIn_append hx]

lemma tickRemain (h : Refines space s t) {a : ℕ} (ha : a ∈ space.tcbs) (v : Tick) :
    ∃ tickRemain, s.tick.tickRemain.modify (some a) (fun _ => v) = some tickRemain
      ∧ tickRemain a = some v
      ∧ Refines space { s with tick := { s.tick with tickRemain := tickRemain } } t := by
  obtain ⟨r, hr⟩ := Option.ne_none_iff_exists'.mp (h.tick.remain a ha)
  obtain ⟨tickRemain, hm, hset, -⟩ := Mem.modify_spec hr fun _ => v
  exact ⟨tickRemain, hm, hset, h.shared, h.rdy, h.rdy_mem, h.pend, h.pend_length,
    h.tick.setRemain fun b hb => Mem.modify_ne_none hm hb, h.tick_mem⟩

lemma tickLink (h : Refines space s t) {i a : ℕ} (hi : i < cfg.tickWheelSize) (ha : a ∈ space.tcbs)
    (hnew : ∀ j, a ∉ t.spoke j) (htcb : ∀ b ∈ t.spoke i, t.shared.tcb b ≠ none) (v : Tick) :
    ∃ s', s.exec (.tickLink a i v) = some ((), s')
      ∧ Refines space s' { t with spoke := Function.update t.spoke i (t.insertTick a i v) } := by
  obtain ⟨tickRemain, hm, hset, hrel⟩ := h.tickRemain ha v
  have hmatch : ∀ b ∈ t.spoke i, b ∈ (space.tcbs : Set ℕ)
      ∧ t.shared.matchOf b = some ((t.shared.matchOf b).getD 0) := by
    intro b hb
    obtain ⟨x, hx⟩ := Option.ne_none_iff_exists'.mp (htcb b hb)
    exact ⟨h.tick_mem i b hb, by simp [Shared.matchOf, hx]⟩
  obtain ⟨tick, htick, hrel'⟩ := hrel.tick.link t.shared.osTickCtr hi ha hnew hmatch hset
    (space.length_succ_lt (h.tick.family.nodup i) (h.tick_mem i) ha (hnew i))
  refine ⟨{ s with tick := tick }, by simp [Machine.exec, hm, h.shared, htick], h.shared, h.rdy,
    h.rdy_mem, h.pend, h.pend_length, hrel', forall_mem_update h.tick_mem fun b hb => ?_⟩
  rcases mem_placeBehind.mp hb with rfl | hb
  · exact ha
  · exact h.tick_mem i b hb

lemma tickUnlink (h : Refines space s t) {i a : ℕ} (ha : a ∈ t.spoke i) :
    ∃ s', s.exec (.tickUnlink a i) = some ((), s')
      ∧ Refines space s' { t with spoke := fun j => (t.spoke j).erase a } := by
  have hi : i < cfg.tickWheelSize := by
    by_contra hle
    rw [h.tick.outside i (not_lt.mp hle)] at ha
    exact List.not_mem_nil ha
  obtain ⟨xs, ys, hL, hx⟩ := List.eq_append_cons_of_mem ha
  obtain ⟨tick, htick, hrel⟩ := h.tick.unlink hi hL
    (space.length_lt (h.tick.family.nodup i) (h.tick_mem i))
  rw [← h.tick.family.erase_eq hL hx] at hrel
  exact ⟨{ s with tick := tick }, by simp [Machine.exec, htick], h.shared, h.rdy, h.rdy_mem, h.pend,
    h.pend_length, hrel, fun j b hb => h.tick_mem j b (List.mem_of_mem_erase hb)⟩

end Refines

/-- **Every command that is served with lists is served with pointers.** -/
theorem machine_simulates :
    Simulates (@Machine.exec cfg) (Queues.exec cfg space) (Refines space) := by
  intro c s t r t' h hc
  cases c with
  | get =>
      obtain ⟨rfl, rfl⟩ := Prod.mk.inj (Option.some_inj.mp hc)
      exact ⟨s, by rw [Machine.exec, h.shared], h⟩
  | set shared =>
      obtain ⟨rfl, rfl⟩ := Prod.mk.inj (Option.some_inj.mp hc)
      exact ⟨{ s with shared := shared }, rfl, rfl, h.rdy, h.rdy_mem, h.pend, h.pend_length, h.tick,
        h.tick_mem⟩
  | fail => exact r.elim
  | prioGetHighest =>
      simp only [Queues.exec] at hc
      split_ifs at hc with hex
      classical
      obtain ⟨rfl, rfl⟩ := Prod.mk.inj (Option.some_inj.mp hc)
      exact ⟨s, h.prioGetHighest ⟨Nat.find_spec hex, fun p hp => Nat.find_min' hex hp⟩, h⟩
  | rdyHead p =>
      obtain ⟨hp, heq⟩ := given_eq_some.mp hc
      obtain ⟨rfl, rfl⟩ := Prod.mk.inj heq
      exact ⟨s, by simp [Machine.exec, h.rdy.load hp], h⟩
  | rdyEntries p =>
      obtain ⟨hp, heq⟩ := given_eq_some.mp hc
      obtain ⟨rfl, rfl⟩ := Prod.mk.inj heq
      exact ⟨s, by simp [Machine.exec, h.rdy.load hp], h⟩
  | prioInsertHead p a =>
      obtain ⟨⟨hp, ha, hnew⟩, heq⟩ := given_eq_some.mp hc
      obtain ⟨rfl, rfl⟩ := Prod.mk.inj heq
      exact h.prioInsertHead hp ha hnew
  | prioInsertTail p a =>
      obtain ⟨⟨hp, ha, hnew⟩, heq⟩ := given_eq_some.mp hc
      obtain ⟨rfl, rfl⟩ := Prod.mk.inj heq
      exact h.prioInsertTail hp ha hnew
  | rdyMoveHeadToTail p =>
      obtain ⟨hp, heq⟩ := given_eq_some.mp hc
      obtain ⟨rfl, rfl⟩ := Prod.mk.inj heq
      exact h.rdyMoveHeadToTail hp
  | rdyRemove p a =>
      obtain ⟨ha, heq⟩ := given_eq_some.mp hc
      obtain ⟨rfl, rfl⟩ := Prod.mk.inj heq
      exact h.rdyRemove ha
  | pendHead o =>
      obtain ⟨ho, heq⟩ := given_eq_some.mp hc
      obtain ⟨rfl, rfl⟩ := Prod.mk.inj heq
      exact ⟨s, by simp [Machine.exec, h.pendHead ho], h⟩
  | pendEntries o =>
      obtain ⟨ho, heq⟩ := given_eq_some.mp hc
      obtain ⟨rfl, rfl⟩ := Prod.mk.inj heq
      exact ⟨s, by simp [Machine.exec, h.pendHead ho], h⟩
  | pendNext d =>
      obtain ⟨e, -, hgiven⟩ := Option.bind_eq_some_iff.mp hc
      obtain ⟨hd, heq⟩ := given_eq_some.mp hgiven
      obtain ⟨rfl, rfl⟩ := Prod.mk.inj heq
      exact ⟨s, h.pendNext hd, h⟩
  | pendInit o =>
      obtain ⟨⟨ho, hL⟩, heq⟩ := given_eq_some.mp hc
      obtain ⟨rfl, rfl⟩ := Prod.mk.inj heq
      exact h.pendInit ho hL
  | pendDataReset d =>
      obtain ⟨⟨hd, hnew⟩, heq⟩ := given_eq_some.mp hc
      obtain ⟨rfl, rfl⟩ := Prod.mk.inj heq
      exact h.pendDataReset hd hnew
  | pendInsertPrio o d =>
      obtain ⟨⟨ho, hd, hnew, hprio, hlen⟩, heq⟩ := given_eq_some.mp hc
      obtain ⟨rfl, rfl⟩ := Prod.mk.inj heq
      exact h.pendInsertPrio ho hd hnew hprio hlen
  | pendRemove1 o d =>
      obtain ⟨⟨ho, hd⟩, heq⟩ := given_eq_some.mp hc
      obtain ⟨rfl, rfl⟩ := Prod.mk.inj heq
      exact h.pendRemove1 ho hd
  | tickFirst i =>
      obtain ⟨hi, heq⟩ := given_eq_some.mp hc
      obtain ⟨rfl, rfl⟩ := Prod.mk.inj heq
      obtain ⟨peak, hpeak⟩ := h.tick.load hi
      exact ⟨s, by simp [Machine.exec, hpeak], h⟩
  | tickEntries i =>
      obtain ⟨hi, heq⟩ := given_eq_some.mp hc
      obtain ⟨rfl, rfl⟩ := Prod.mk.inj heq
      obtain ⟨peak, hpeak⟩ := h.tick.load hi
      exact ⟨s, by simp [Machine.exec, hpeak], h⟩
  | tickNext a =>
      obtain ⟨x, -, hspoke⟩ := Option.bind_eq_some_iff.mp hc
      obtain ⟨i, -, hgiven⟩ := Option.bind_eq_some_iff.mp hspoke
      obtain ⟨ha, heq⟩ := given_eq_some.mp hgiven
      obtain ⟨rfl, rfl⟩ := Prod.mk.inj heq
      exact ⟨s, h.tickNext ha, h⟩
  | tickRemain a v =>
      obtain ⟨ha, heq⟩ := given_eq_some.mp hc
      obtain ⟨rfl, rfl⟩ := Prod.mk.inj heq
      obtain ⟨tickRemain, hm, -, hrel⟩ := h.tickRemain ha v
      exact ⟨_, by simp [Machine.exec, hm], hrel⟩
  | tickLink a i v =>
      obtain ⟨⟨hi, ha, hnew, htcb⟩, heq⟩ := given_eq_some.mp hc
      obtain ⟨rfl, rfl⟩ := Prod.mk.inj heq
      exact h.tickLink hi ha hnew htcb v
  | tickUnlink a i =>
      obtain ⟨ha, heq⟩ := given_eq_some.mp hc
      obtain ⟨rfl, rfl⟩ := Prod.mk.inj heq
      exact h.tickUnlink ha

end Wgs.Ucos
