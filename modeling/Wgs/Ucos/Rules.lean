import Wgs.Ucos.Machine

/-!
What the functions of the kernel make of the queues.

One equation for each function, from what a task's `OS_TCB` and the lists say before the call.  A
task that is posted to, whose wait is aborted or whose time has come is released in one and the same
way (`Queues.release`).
-/

namespace Wgs.Ucos

open Foundation Ucos.Kernel

namespace OsTcb

/-- The task is in no spoke any more. -/
def offWheel (x : OsTcb) : OsTcb :=
  if x.tickSpokePtr = none then x else x.unwheeled

/-- The task waits no longer; a task that is suspended stays so. -/
def released (x : OsTcb) (pendStatus : PendStatus) (ts : ℕ) : OsTcb :=
  (x.stamp ts).unlisted.offWheel.unpended
    (if x.taskState.isSuspended then .suspended else .rdy) pendStatus

/-- The task's wait is ended as if it waited for no object: what it has of a list stays. -/
def strayed (x : OsTcb) (ts : ℕ) : OsTcb :=
  (x.stamp ts).offWheel.unpended (if x.taskState.isSuspended then .suspended else .rdy) .abort

/-- The task's delay is over; a task that is suspended stays so. -/
def awakened (x : OsTcb) : OsTcb :=
  (x.toState (if x.taskState.isSuspended then .suspended else .rdy)).offWheel

/-- What `OS_TickListUpdate` makes of a task whose time has come. -/
def expired (x : OsTcb) (ts : ℕ) : OsTcb :=
  if x.taskState.isPend then x.released .timeout ts else x.awakened

section OffWheel

variable (x : OsTcb)

@[simp] lemma offWheel_prio : x.offWheel.prio = x.prio := by
  unfold offWheel
  split_ifs <;> rfl

@[simp] lemma offWheel_ts : x.offWheel.ts = x.ts := by
  unfold offWheel
  split_ifs <;> rfl

@[simp] lemma offWheel_taskState : x.offWheel.taskState = x.taskState := by
  unfold offWheel
  split_ifs <;> rfl

@[simp] lemma offWheel_pendOn : x.offWheel.pendOn = x.pendOn := by
  unfold offWheel
  split_ifs <;> rfl

@[simp] lemma offWheel_pendDataTblPtr : x.offWheel.pendDataTblPtr = x.pendDataTblPtr := by
  unfold offWheel
  split_ifs <;> rfl

@[simp] lemma offWheel_pendDataTblEntries :
    x.offWheel.pendDataTblEntries = x.pendDataTblEntries := by
  unfold offWheel
  split_ifs <;> rfl

@[simp] lemma offWheel_tickSpokePtr : x.offWheel.tickSpokePtr = none := by
  unfold offWheel
  split_ifs with h
  · exact h
  · rfl

@[simp] lemma offWheel_unlisted : x.offWheel.unlisted = x.unlisted.offWheel := by
  simp only [offWheel, unlisted_tickSpokePtr]
  split_ifs <;> rfl

end OffWheel

/-- A task that is in no list of an object. -/
lemma unlisted_eq_self {x : OsTcb} (hptr : x.pendDataTblPtr = none)
    (hentries : x.pendDataTblEntries = 0) : x.unlisted = x := by
  cases x
  simp_all [unlisted]

end OsTcb

/-! ### Changes of the queues -/

namespace Queues

/-- A task's `OS_TCB` is written. -/
def setTcb (s : Queues) (t : ℕ) (x : OsTcb) : Queues :=
  { s with shared := { s.shared with tcb := Function.update s.shared.tcb t (some x) } }

/-- An `OS_PEND_DATA` is written. -/
def setPendData (s : Queues) (d : ℕ) (e : OsPendData) : Queues :=
  { s with
    shared := { s.shared with pendData := Function.update s.shared.pendData d (some e) } }

/-- An `OS_SEM` is written. -/
def setSem (s : Queues) (o : ℕ) (e : OsSem) : Queues :=
  { s with shared := { s.shared with sem := Function.update s.shared.sem o (some e) } }

/-- A task is taken out of the ready lists. -/
def leaveRdy (s : Queues) (t : ℕ) : Queues := { s with rdy := fun p => (s.rdy p).erase t }

/-- A task is taken out of the tick wheel. -/
def leaveSpoke (s : Queues) (t : ℕ) : Queues := { s with spoke := fun i => (s.spoke i).erase t }

/-- An `OS_PEND_DATA`, if there is one, is taken out of the lists of the objects. -/
def leavePend (s : Queues) : Ptr → Queues
  | none => s
  | some d => { s with pend := fun o => (s.pend o).erase d }

/-- A ready list is written. -/
def setRdy (s : Queues) (p : ℕ) (K : List ℕ) : Queues :=
  { s with rdy := Function.update s.rdy p K }

/-- A task is put into a ready list, as `OS_RdyListInsert` does. -/
def joinRdy (s : Queues) (t p : ℕ) : Queues :=
  s.setRdy p (if p = s.shared.osPrioCur then s.rdy p ++ [t] else t :: s.rdy p)

/-- A task leaves what it waits in, with a new `OS_TCB`, and it is made ready if that says so. -/
def release (s : Queues) (t : ℕ) (pPendData : Ptr) (x : OsTcb) : Queues :=
  if x.taskState = .rdy then (((s.leaveSpoke t).leavePend pPendData).setTcb t x).joinRdy t x.prio
  else ((s.leaveSpoke t).leavePend pPendData).setTcb t x

section Projections

variable (s : Queues) (t u o p e : ℕ) (x y : OsTcb) (f g : OsPendData) (k : OsSem) (d : Ptr)

@[simp] lemma setTcb_tcb_self : (s.setTcb t x).shared.tcb t = some x := Function.update_self _ _ _

@[simp] lemma setTcb_rdy : (s.setTcb t x).rdy = s.rdy := rfl

@[simp] lemma setTcb_spoke : (s.setTcb t x).spoke = s.spoke := rfl

@[simp] lemma setTcb_pend : (s.setTcb t x).pend = s.pend := rfl

@[simp] lemma setTcb_listed : (s.setTcb t x).listed = s.listed := rfl

@[simp] lemma setTcb_vars : (s.setTcb t x).shared.toOsVars = s.shared.toOsVars := rfl

@[simp] lemma setTcb_pendData : (s.setTcb t x).shared.pendData = s.shared.pendData := rfl

@[simp] lemma setTcb_sem : (s.setTcb t x).shared.sem = s.shared.sem := rfl

@[simp] lemma setTcb_setTcb : (s.setTcb t x).setTcb t y = s.setTcb t y := by
  simp [setTcb]

lemma setTcb_tcb_of_ne {t u : ℕ} (h : u ≠ t) : (s.setTcb t x).shared.tcb u = s.shared.tcb u :=
  Function.update_of_ne h _ _

lemma setTcb_self {t : ℕ} {x : OsTcb} (h : s.shared.tcb t = some x) : s.setTcb t x = s := by
  rw [setTcb, ← h, Function.update_eq_self]

@[simp] lemma setPendData_vars :
    (s.setPendData e f).shared.toOsVars = s.shared.toOsVars := rfl

@[simp] lemma setPendData_rdy : (s.setPendData e f).rdy = s.rdy := rfl

@[simp] lemma setPendData_spoke : (s.setPendData e f).spoke = s.spoke := rfl

@[simp] lemma setPendData_pend : (s.setPendData e f).pend = s.pend := rfl

@[simp] lemma setPendData_listed : (s.setPendData e f).listed = s.listed := rfl

@[simp] lemma setPendData_tcb : (s.setPendData e f).shared.tcb = s.shared.tcb := rfl

@[simp] lemma setPendData_pendData_self : (s.setPendData e f).shared.pendData e = some f :=
  Function.update_self _ _ _

@[simp] lemma setPendData_setPendData :
    (s.setPendData e f).setPendData e g = s.setPendData e g := by
  simp [setPendData]

@[simp] lemma setPendData_setTcb :
    (s.setTcb t x).setPendData e f = (s.setPendData e f).setTcb t x := rfl

@[simp] lemma setSem_rdy : (s.setSem o k).rdy = s.rdy := rfl

@[simp] lemma setSem_spoke : (s.setSem o k).spoke = s.spoke := rfl

@[simp] lemma setSem_pend : (s.setSem o k).pend = s.pend := rfl

@[simp] lemma setSem_listed : (s.setSem o k).listed = s.listed := rfl

@[simp] lemma setSem_tcb : (s.setSem o k).shared.tcb = s.shared.tcb := rfl

@[simp] lemma setSem_pendData : (s.setSem o k).shared.pendData = s.shared.pendData := rfl

@[simp] lemma setSem_sem_self : (s.setSem o k).shared.sem o = some k := Function.update_self _ _ _

@[simp] lemma leaveRdy_shared : (s.leaveRdy t).shared = s.shared := rfl

@[simp] lemma leaveRdy_spoke : (s.leaveRdy t).spoke = s.spoke := rfl

@[simp] lemma leaveRdy_pend : (s.leaveRdy t).pend = s.pend := rfl

@[simp] lemma leaveRdy_listed : (s.leaveRdy t).listed = s.listed := rfl

@[simp] lemma leaveRdy_setTcb : (s.setTcb t x).leaveRdy u = (s.leaveRdy u).setTcb t x := rfl

@[simp] lemma leaveSpoke_shared : (s.leaveSpoke t).shared = s.shared := rfl

@[simp] lemma leaveSpoke_rdy : (s.leaveSpoke t).rdy = s.rdy := rfl

@[simp] lemma leaveSpoke_pend : (s.leaveSpoke t).pend = s.pend := rfl

@[simp] lemma leaveSpoke_listed : (s.leaveSpoke t).listed = s.listed := rfl

@[simp] lemma leaveSpoke_setTcb : (s.setTcb t x).leaveSpoke u = (s.leaveSpoke u).setTcb t x := rfl

@[simp] lemma leavePend_none : s.leavePend none = s := rfl

@[simp] lemma leavePend_shared : (s.leavePend d).shared = s.shared := by cases d <;> rfl

@[simp] lemma leavePend_rdy : (s.leavePend d).rdy = s.rdy := by cases d <;> rfl

@[simp] lemma leavePend_spoke : (s.leavePend d).spoke = s.spoke := by cases d <;> rfl

@[simp] lemma leavePend_listed : (s.leavePend d).listed = s.listed := by cases d <;> rfl

@[simp] lemma leavePend_setTcb : (s.setTcb t x).leavePend d = (s.leavePend d).setTcb t x := by
  cases d <;> rfl

@[simp] lemma leavePend_leaveSpoke :
    (s.leavePend d).leaveSpoke t = (s.leaveSpoke t).leavePend d := by cases d <;> rfl

@[simp] lemma joinRdy_shared : (s.joinRdy t p).shared = s.shared := rfl

@[simp] lemma joinRdy_spoke : (s.joinRdy t p).spoke = s.spoke := rfl

@[simp] lemma joinRdy_pend : (s.joinRdy t p).pend = s.pend := rfl

@[simp] lemma joinRdy_listed : (s.joinRdy t p).listed = s.listed := rfl

@[simp] lemma joinRdy_setTcb : (s.joinRdy u p).setTcb t x = (s.setTcb t x).joinRdy u p := rfl

end Projections

end Queues

/-! ### Runs of the accesses -/

section Runs

variable {cfg : Config} {space : Space} {s : Queues} {t o d p i : ℕ} {x : OsTcb}

@[simp] lemma ask_eq (c : Cmd) : ask c = Prog.call c := rfl

@[simp] lemma run_get : Kernel.get.run (Queues.exec cfg space) s = some (s.shared, s) := by
  simp [Kernel.get, Queues.exec]

@[simp] lemma run_modify (f : Shared → Shared) :
    (Kernel.modify f).run (Queues.exec cfg space) s
      = some ((), { s with shared := f s.shared }) := by
  simp [Kernel.modify, Queues.exec]

@[simp] lemma run_require {α : Type} (a : Option α) :
    (require a).run (Queues.exec cfg space) s = a.map fun a => (a, s) := by
  cases a with
  | none => rfl
  | some a => rfl

@[simp] lemma run_tcb :
    (Kernel.tcb t).run (Queues.exec cfg space) s = (s.shared.tcb t).map fun x => (x, s) := by
  simp [Kernel.tcb]

@[simp] lemma run_modifyTcb (f : OsTcb → OsTcb) :
    (modifyTcb t f).run (Queues.exec cfg space) s
      = (s.shared.tcb t).map fun x => ((), s.setTcb t (f x)) := by
  cases hx : s.shared.tcb t with
  | none => simp [modifyTcb, Mem.modify, hx]
  | some x => simp [modifyTcb, Mem.modify_eq hx, Queues.setTcb, Queues.exec]

@[simp] lemma run_sem :
    (Kernel.sem o).run (Queues.exec cfg space) s = (s.shared.sem o).map fun x => (x, s) := by
  simp [Kernel.sem]

@[simp] lemma run_modifySem (f : OsSem → OsSem) :
    (modifySem o f).run (Queues.exec cfg space) s
      = (s.shared.sem o).map fun k => ((), s.setSem o (f k)) := by
  cases hk : s.shared.sem o with
  | none => simp [modifySem, Mem.modify, hk]
  | some k => simp [modifySem, Mem.modify_eq hk, Queues.setSem, Queues.exec]

@[simp] lemma run_pendData :
    (Kernel.pendData d).run (Queues.exec cfg space) s
      = (s.shared.pendData d).map fun e => (e, s) := by
  simp [Kernel.pendData]

@[simp] lemma run_modifyPendData (f : OsPendData → OsPendData) :
    (modifyPendData d f).run (Queues.exec cfg space) s
      = (s.shared.pendData d).map fun e => ((), s.setPendData d (f e)) := by
  cases he : s.shared.pendData d with
  | none => simp [modifyPendData, Mem.modify, he]
  | some e => simp [modifyPendData, Mem.modify_eq he, Queues.setPendData, Queues.exec]

lemma run_tcb_of (hx : s.shared.tcb t = some x) :
    (Kernel.tcb t).run (Queues.exec cfg space) s = some (x, s) := by
  rw [run_tcb, hx, Option.map_some]

lemma run_modifyTcb_of (hx : s.shared.tcb t = some x) (f : OsTcb → OsTcb) :
    (modifyTcb t f).run (Queues.exec cfg space) s = some ((), s.setTcb t (f x)) := by
  rw [run_modifyTcb, hx, Option.map_some]

lemma run_sem_of {k : OsSem} (hk : s.shared.sem o = some k) :
    (Kernel.sem o).run (Queues.exec cfg space) s = some (k, s) := by
  rw [run_sem, hk, Option.map_some]

lemma run_modifySem_of {k : OsSem} (hk : s.shared.sem o = some k) (f : OsSem → OsSem) :
    (modifySem o f).run (Queues.exec cfg space) s = some ((), s.setSem o (f k)) := by
  rw [run_modifySem, hk, Option.map_some]

lemma run_pendData_of {e : OsPendData} (he : s.shared.pendData d = some e) :
    (Kernel.pendData d).run (Queues.exec cfg space) s = some (e, s) := by
  rw [run_pendData, he, Option.map_some]

@[simp] lemma run_cur :
    cur.run (Queues.exec cfg space) s = s.shared.osTcbCurPtr.map fun t => (t, s) := by
  simp [cur]

lemma run_cur_of (hcur : s.shared.osTcbCurPtr = some t) :
    cur.run (Queues.exec cfg space) s = some (t, s) := by
  rw [run_cur, hcur, Option.map_some]

/-! ### Functions of the lists -/

/-- `OS_TickListRemove` -/
lemma run_osTickListRemove (ht : t ∈ space.tcbs) (hx : s.shared.tcb t = some x)
    (hspoke : ∀ i, t ∈ s.spoke i ↔ x.tickSpokePtr = some i) :
    (osTickListRemove t).run (Queues.exec cfg space) s
      = some ((), (s.leaveSpoke t).setTcb t x.offWheel) := by
  cases hi : x.tickSpokePtr with
  | none =>
      have hsame : s.leaveSpoke t = s := by
        have herase : (fun i => (s.spoke i).erase t) = s.spoke :=
          funext fun i => List.erase_of_not_mem fun hmem => by simp [hi, hspoke] at hmem
        rw [Queues.leaveSpoke, herase]
      simp [osTickListRemove, hx, hi, hsame, OsTcb.offWheel, Queues.setTcb_self s hx]
  | some i =>
      have hmem : t ∈ s.spoke i := (hspoke i).mpr hi
      simp [osTickListRemove, hx, hi, Queues.exec, given_of hmem, given_of ht, OsTcb.offWheel,
        Queues.setTcb, Queues.leaveSpoke]

/-- `OS_RdyListInsert` -/
lemma run_osRdyListInsert (ht : t ∈ space.tcbs) (hx : s.shared.tcb t = some x)
    (hprio : x.prio < cfg.prioMax) (hrdy : ∀ p, t ∉ s.rdy p) :
    (osRdyListInsert t).run (Queues.exec cfg space) s = some ((), s.joinRdy t x.prio) := by
  by_cases hcur : x.prio = s.shared.osPrioCur
  · simp [osRdyListInsert, hx, hcur, Queues.exec, Queues.joinRdy, Queues.setRdy, given,
      hcur ▸ hprio, ht, hrdy]
  · simp [osRdyListInsert, hx, hcur, Queues.exec, Queues.joinRdy, Queues.setRdy, given, hprio, ht,
      hrdy]

/-- `OS_RdyListRemove` -/
lemma run_osRdyListRemoveOf (hx : s.shared.tcb t = some x) (hrdy : t ∈ s.rdy x.prio) :
    (osRdyListRemoveOf t).run (Queues.exec cfg space) s = some ((), s.leaveRdy t) := by
  simp [osRdyListRemoveOf, hx, Queues.exec, given_of hrdy, Queues.leaveRdy]

/-- `OS_TaskRdy` -/
lemma run_osTaskRdy (ht : t ∈ space.tcbs) (hx : s.shared.tcb t = some x)
    (hspoke : ∀ i, t ∈ s.spoke i ↔ x.tickSpokePtr = some i) (hprio : x.prio < cfg.prioMax)
    (hsuspended : x.taskState.isSuspended = false) (hrdy : ∀ p, t ∉ s.rdy p) :
    (osTaskRdy t).run (Queues.exec cfg space) s
      = some ((), ((s.leaveSpoke t).setTcb t x.offWheel).joinRdy t x.prio) := by
  have hinsert : (osRdyListInsert t).run (Queues.exec cfg space)
      ((s.leaveSpoke t).setTcb t x.offWheel)
        = some ((), ((s.leaveSpoke t).setTcb t x.offWheel).joinRdy t x.offWheel.prio) :=
    run_osRdyListInsert ht (by simp) (by simpa using hprio) (by simpa using hrdy)
  simp [osTaskRdy, run_osTickListRemove ht hx hspoke, hsuspended, hinsert]

/-- What `OS_PendListRemove` relies on: the task is in no list, or in one of a single object. -/
def InTable (s : Queues) (t : ℕ) (x : OsTcb) : Prop :=
  (x.pendDataTblPtr = none ∧ x.pendDataTblEntries = 0)
    ∨ ∃ d o, x.pendDataTblPtr = some d ∧ x.pendDataTblEntries = 1
      ∧ s.shared.pendData d = some ⟨t, o⟩ ∧ o ∈ s.listed ∧ d ∈ s.pend o

/-- `OS_PendListRemove` -/
lemma run_osPendListRemove (hx : s.shared.tcb t = some x) (htable : InTable s t x) :
    (osPendListRemove t).run (Queues.exec cfg space) s
      = some ((), (s.leavePend x.pendDataTblPtr).setTcb t
          x.unlisted) := by
  rcases htable with ⟨hptr, hentries⟩ | ⟨d, o, hptr, hentries, he, ho, hd⟩
  · simp [osPendListRemove, hx, hptr, hentries, pendListRemoveLoop]
  · simp [osPendListRemove, hx, hptr, hentries, pendListRemoveLoop, he, Queues.exec, given, ho, hd,
      Queues.leavePend, Queues.setTcb]

/-! ### A task is released -/

/-- What is known of a task that waits. -/
structure Waiting (cfg : Config) (space : Space) (s : Queues) (t : ℕ) (x : OsTcb) : Prop where
  mem : t ∈ space.tcbs
  tcb : s.shared.tcb t = some x
  spoke : ∀ i, t ∈ s.spoke i ↔ x.tickSpokePtr = some i
  prio_lt : x.prio < cfg.prioMax
  rdy : ∀ p, t ∉ s.rdy p
  table : InTable s t x

namespace Waiting

variable {ts : ℕ}

/-- What does not concern its lists may change. -/
lemma setTcb (h : Waiting cfg space s t x) {y : OsTcb} (hspoke : y.tickSpokePtr = x.tickSpokePtr)
    (hprio : y.prio = x.prio) (hptr : y.pendDataTblPtr = x.pendDataTblPtr)
    (hentries : y.pendDataTblEntries = x.pendDataTblEntries) :
    Waiting cfg space (s.setTcb t y) t y where
  mem := h.mem
  tcb := s.setTcb_tcb_self t y
  spoke := hspoke ▸ h.spoke
  prio_lt := hprio ▸ h.prio_lt
  rdy := h.rdy
  table := by
    rw [InTable, hptr, hentries]
    exact h.table

/-- It is in no list of an object any more. -/
lemma unlist (h : Waiting cfg space s t x) :
    Waiting cfg space ((s.leavePend x.pendDataTblPtr).setTcb t
      x.unlisted) t
      x.unlisted where
  mem := h.mem
  tcb := Queues.setTcb_tcb_self _ t _
  spoke := by simpa using h.spoke
  prio_lt := h.prio_lt
  rdy := by simpa using h.rdy
  table := .inl ⟨rfl, rfl⟩

/-- It is in no spoke any more. -/
lemma offWheel (h : Waiting cfg space s t x) (hnodup : ∀ i, (s.spoke i).Nodup) :
    Waiting cfg space ((s.leaveSpoke t).setTcb t x.offWheel) t x.offWheel where
  mem := h.mem
  tcb := Queues.setTcb_tcb_self _ t _
  spoke i := by simp [Queues.leaveSpoke, (hnodup i).mem_erase_iff]
  prio_lt := by simpa using h.prio_lt
  rdy := by simpa using h.rdy
  table := by simpa [InTable] using h.table

/-- `OS_PendListRemove`, where it is called for a task that waits for an object. -/
lemma run_unlist (h : Waiting cfg space s t x) (pObj : Ptr)
    (hobj : pObj = none → x.pendDataTblPtr = none ∧ x.pendDataTblEntries = 0) :
    (pendListRemoveFrom pObj t).run (Queues.exec cfg space) s
      = some ((), (s.leavePend x.pendDataTblPtr).setTcb t
          x.unlisted) := by
  by_cases hnone : pObj = none
  · obtain ⟨hptr, hentries⟩ := hobj hnone
    simp [pendListRemoveFrom, hnone, hptr, OsTcb.unlisted_eq_self hptr hentries,
      s.setTcb_self h.tcb]
  · rw [pendListRemoveFrom, if_neg hnone, run_osPendListRemove h.tcb h.table]

lemma run_osTickListRemove (h : Waiting cfg space s t x) :
    (osTickListRemove t).run (Queues.exec cfg space) s
      = some ((), (s.leaveSpoke t).setTcb t x.offWheel) :=
  Ucos.run_osTickListRemove h.mem h.tcb h.spoke

lemma run_osTaskRdy (h : Waiting cfg space s t x) (hsuspended : x.taskState.isSuspended = false) :
    (osTaskRdy t).run (Queues.exec cfg space) s
      = some ((), ((s.leaveSpoke t).setTcb t x.offWheel).joinRdy t x.prio) :=
  Ucos.run_osTaskRdy h.mem h.tcb h.spoke h.prio_lt hsuspended h.rdy

section Release

variable {pObj : Ptr}

/-- The steps of a release, one after the other. -/
private lemma run_steps (h : Waiting cfg space s t x) (hnodup : ∀ i, (s.spoke i).Nodup) (ts : ℕ) :
    (∀ q : Ptr, (q = none → x.pendDataTblPtr = none ∧ x.pendDataTblEntries = 0) →
      (pendListRemoveFrom q t).run (Queues.exec cfg space) (s.setTcb t (x.stamp ts))
          = some ((), (s.leavePend x.pendDataTblPtr).setTcb t (x.stamp ts).unlisted)
        ∧ (pendListRemoveFrom q t).run (Queues.exec cfg space)
            ((s.leaveSpoke t).setTcb t (x.stamp ts).offWheel)
          = some ((), ((s.leaveSpoke t).leavePend x.pendDataTblPtr).setTcb t
              (x.stamp ts).unlisted.offWheel))
    ∧ (x.taskState.isSuspended = false → (osTaskRdy t).run (Queues.exec cfg space)
        ((s.leavePend x.pendDataTblPtr).setTcb t (x.stamp ts).unlisted)
          = some ((), (((s.leaveSpoke t).leavePend x.pendDataTblPtr).setTcb t
              (x.stamp ts).unlisted.offWheel).joinRdy t x.prio))
    ∧ (osTickListRemove t).run (Queues.exec cfg space) (s.setTcb t (x.stamp ts))
        = some ((), (s.leaveSpoke t).setTcb t (x.stamp ts).offWheel)
    ∧ (osTickListRemove t).run (Queues.exec cfg space)
        ((s.leavePend x.pendDataTblPtr).setTcb t (x.stamp ts).unlisted)
          = some ((), ((s.leaveSpoke t).leavePend x.pendDataTblPtr).setTcb t
              (x.stamp ts).unlisted.offWheel) := by
  have h₁ : Waiting cfg space (s.setTcb t (x.stamp ts)) t (x.stamp ts) :=
    h.setTcb rfl rfl rfl rfl
  refine ⟨fun q hq => ⟨?_, ?_⟩, fun hsuspended => ?_, ?_, ?_⟩
  · simpa using h₁.run_unlist q hq
  · simpa using (h₁.offWheel hnodup).run_unlist q (by simpa using hq)
  · simpa using h₁.unlist.run_osTaskRdy hsuspended
  · simpa using h₁.run_osTickListRemove
  · simpa using h₁.unlist.run_osTickListRemove

/-- **`OS_Post` releases a task that waits.** -/
lemma run_osPost (h : Waiting cfg space s t x) (hnodup : ∀ i, (s.spoke i).Nodup)
    (ts : ℕ) (pObj : Ptr) (hpend : x.taskState.isPend = true)
    (hobj : pObj = none → x.pendDataTblPtr = none ∧ x.pendDataTblEntries = 0) :
    (osPost pObj t ts).run (Queues.exec cfg space) s
      = some ((), s.release t x.pendDataTblPtr (x.released .ok ts)) := by
  obtain ⟨hunlist, hready, hoff, -⟩ := h.run_steps hnodup ts
  cases hstate : x.taskState with
  | rdy | dly | suspended | dlySuspended => simp [hstate, TaskState.isPend] at hpend
  | pend | pendTimeout =>
      simp [osPost, h.tcb, hstate, (hunlist pObj hobj).1,
        hready (congrArg TaskState.isSuspended hstate), Queues.release, OsTcb.released,
        TaskState.isSuspended]
  | pendSuspended | pendTimeoutSuspended =>
      simp [osPost, h.tcb, hstate, hoff, (hunlist pObj hobj).2, Queues.release, OsTcb.released,
        TaskState.isSuspended]

/-- **`OS_PendAbort` releases a task that waits.** -/
lemma run_osPendAbort (h : Waiting cfg space s t x) (hnodup : ∀ i, (s.spoke i).Nodup)
    (ts : ℕ) (pObj : Ptr) (hpend : x.taskState.isPend = true)
    (hobj : pObj = none → x.pendDataTblPtr = none ∧ x.pendDataTblEntries = 0) :
    (osPendAbort pObj t ts).run (Queues.exec cfg space) s
      = some ((), s.release t x.pendDataTblPtr (x.released .abort ts)) := by
  obtain ⟨hunlist, hready, -, hoff⟩ := h.run_steps hnodup ts
  cases hstate : x.taskState with
  | rdy | dly | suspended | dlySuspended => simp [hstate, TaskState.isPend] at hpend
  | pend | pendTimeout =>
      simp [osPendAbort, h.tcb, hstate, (hunlist pObj hobj).1,
        hready (congrArg TaskState.isSuspended hstate), Queues.release, OsTcb.released,
        TaskState.isSuspended]
  | pendSuspended | pendTimeoutSuspended =>
      simp [osPendAbort, h.tcb, hstate, (hunlist pObj hobj).1, hoff, Queues.release, OsTcb.released,
        TaskState.isSuspended]

end Release

/-- `OS_PendAbort` without an object leaves the task in the list of the one it waits for. -/
lemma run_osPendAbort_none (h : Waiting cfg space s t x) (ts : ℕ)
    (hpend : x.taskState.isPend = true) :
    (osPendAbort none t ts).run (Queues.exec cfg space) s
      = some ((), s.release t none (x.strayed ts)) := by
  have hstamp : Waiting cfg space (s.setTcb t (x.stamp ts)) t (x.stamp ts) :=
    h.setTcb rfl rfl rfl rfl
  have hrdy := hstamp.run_osTaskRdy
  have hoff := hstamp.run_osTickListRemove
  cases hstate : x.taskState with
  | rdy | dly | suspended | dlySuspended => simp [hstate, TaskState.isPend] at hpend
  | pend | pendTimeout =>
      simp [osPendAbort, h.tcb, hstate, pendListRemoveFrom,
        hrdy (congrArg TaskState.isSuspended hstate), Queues.release, OsTcb.strayed,
        TaskState.isSuspended]
  | pendSuspended | pendTimeoutSuspended =>
      simp [osPendAbort, h.tcb, hstate, pendListRemoveFrom, hoff, Queues.release, OsTcb.strayed,
        TaskState.isSuspended]

/-- **A task whose time has come is released.** -/
lemma run_tickExpire (h : Waiting cfg space s t x) (hnodup : ∀ i, (s.spoke i).Nodup)
    (ts : ℕ) (hdly : x.taskState.isDly = true)
    (hobj : x.taskState.isPend = false → x.pendDataTblPtr = none) :
    (tickExpire t ts x.taskState).run (Queues.exec cfg space) s
      = some ((), s.release t x.pendDataTblPtr (x.expired ts)) := by
  obtain ⟨hunlist, hready, -, hoff⟩ := h.run_steps hnodup ts
  have hremove : (osPendListRemove t).run (Queues.exec cfg space) (s.setTcb t (x.stamp ts))
      = some ((), (s.leavePend x.pendDataTblPtr).setTcb t (x.stamp ts).unlisted) := by
    have hrun := (hunlist (some 0) (by simp)).1
    rwa [pendListRemoveFrom, if_neg (by simp)] at hrun
  cases hstate : x.taskState with
  | rdy | pend | suspended | pendSuspended => simp [hstate, TaskState.isDly] at hdly
  | pendTimeout =>
      simp [tickExpire, h.tcb, hstate, hremove,
        hready (congrArg TaskState.isSuspended hstate), Queues.release, OsTcb.released,
        OsTcb.expired, TaskState.isSuspended, TaskState.isPend]
  | pendTimeoutSuspended =>
      simp [tickExpire, h.tcb, hstate, hremove, hoff, Queues.release, OsTcb.released,
        OsTcb.expired, TaskState.isSuspended, TaskState.isPend]
  | dly =>
      have h₂ : Waiting cfg space (s.setTcb t (x.toState .rdy)) t (x.toState .rdy) :=
        h.setTcb rfl rfl rfl rfl
      have hptr := hobj (by simp [hstate, TaskState.isPend])
      simp [tickExpire, h.tcb, h₂.run_osTaskRdy, Queues.release, OsTcb.expired, OsTcb.awakened,
        hstate, hptr, TaskState.isSuspended, TaskState.isPend]
  | dlySuspended =>
      have h₂ : Waiting cfg space (s.setTcb t (x.toState .suspended)) t (x.toState .suspended) :=
        h.setTcb rfl rfl rfl rfl
      have hptr := hobj (by simp [hstate, TaskState.isPend])
      simp [tickExpire, h.tcb, h₂.run_osTickListRemove, Queues.release, OsTcb.expired,
        OsTcb.awakened, hstate, hptr, TaskState.isSuspended, TaskState.isPend]

end Waiting

/-! ### A task begins to wait -/

/-- When `OS_TickListInsert` has a task woken, and its new `TickCtrPrev`; not at all where there is
no time to wait. -/
def tickDue (osTickCtr : Tick) (x : OsTcb) (time : Tick) (opt : BitVec 16) :
    Option (Tick × Tick) :=
  if opt = osOptTimeMatch then
    if time - osTickCtr - 1 > osTickThRdy then none else some (time, x.tickCtrPrev)
  else if time > 0 then
    if opt = osOptTimePeriodic then
      let tickNext := x.tickCtrPrev + time
      if tickNext - osTickCtr - 1 < time then some (tickNext, tickNext)
      else some (osTickCtr + time, osTickCtr + time)
    else some (osTickCtr + time, x.tickCtrPrev)
  else none

/-- The time of a delay is over: it is up to a tick that has gone by. -/
def IsLate (osTickCtr time : Tick) (opt : BitVec 16) : Prop :=
  opt = osOptTimeMatch ∧ time - osTickCtr - 1 > osTickThRdy

/-- Where there is a time, there is time to wait unless it is over. -/
lemma tickDue_eq_none_iff {osTickCtr time : Tick} {opt : BitVec 16}
    (htime : opt = osOptTimeMatch ∨ time ≠ 0) :
    tickDue osTickCtr x time opt = none ↔ IsLate osTickCtr time opt := by
  unfold tickDue IsLate
  by_cases hmatch : opt = osOptTimeMatch
  · simp [hmatch]
  · have hpos : 0 < time := time.pos_iff_ne_zero.mpr (htime.resolve_left hmatch)
    simp only [hmatch, hpos, gt_iff_lt, if_true, if_false, false_and, iff_false]
    split_ifs <;> simp

/-- A task is never to be woken at the present tick. -/
lemma tickDue_ne {osTickCtr time m prev : Tick} {opt : BitVec 16}
    (h : tickDue osTickCtr x time opt = some (m, prev)) : m ≠ osTickCtr := by
  have hadd : time > 0 → osTickCtr + time ≠ osTickCtr := by
    intro htime heq
    have hzero : time = 0 := by simpa using heq
    simp [hzero] at htime
  rintro rfl
  simp only [tickDue] at h
  split_ifs at h with hmatch hdelta htime hperiodic hnext <;>
    simp only [Option.some_inj, Prod.mk.injEq] at h
  · obtain ⟨rfl, -⟩ := h
    simp [osTickThRdy] at hdelta
  · rw [h.1] at hnext
    simp only [BitVec.sub_self, BitVec.lt_def] at hnext
    have := time.isLt
    simp at hnext
    omega
  · exact hadd htime h.1
  · exact hadd htime h.1

namespace Queues

/-- A task is put into a spoke. -/
def joinSpoke (s : Queues) (t i : ℕ) (remain : Tick) : Queues :=
  { s with spoke := Function.update s.spoke i (s.insertTick t i remain) }

/-- A task is put into the spoke of the tick it is to be woken at. -/
def enterWheel (cfg : Config) (s : Queues) (t : ℕ) (m : Tick) : Queues :=
  s.joinSpoke t (m.toNat % cfg.tickWheelSize) (m - s.shared.osTickCtr)

section Projections

variable (s : Queues) (t u i : ℕ) (m remain : Tick) (x : OsTcb)

@[simp] lemma enterWheel_shared : (s.enterWheel cfg t m).shared = s.shared := rfl

@[simp] lemma enterWheel_rdy : (s.enterWheel cfg t m).rdy = s.rdy := rfl

@[simp] lemma enterWheel_pend : (s.enterWheel cfg t m).pend = s.pend := rfl

@[simp] lemma enterWheel_listed : (s.enterWheel cfg t m).listed = s.listed := rfl

lemma insertTick_setTcb (h : t ∉ s.spoke i) :
    (s.setTcb t x).insertTick t i remain = s.insertTick t i remain := by
  refine placeBehind_congr fun a ha => ?_
  rw [Shared.matchOf, Shared.matchOf, s.setTcb_tcb_of_ne x (ne_of_mem_of_not_mem ha h)]
  rfl

lemma enterWheel_setTcb (h : ∀ i, t ∉ s.spoke i) :
    (s.setTcb t x).enterWheel cfg t m = (s.enterWheel cfg t m).setTcb t x := by
  simp only [enterWheel, joinSpoke, setTcb_vars, insertTick_setTcb s t _ _ x (h _)]
  rfl

end Projections

end Queues

/-- The task goes into the wheel. -/
lemma run_tickListInsertSpoke (ht : t ∈ space.tcbs) (hx : s.shared.tcb t = some x)
    (hspoke : ∀ i, t ∉ s.spoke i) (hother : ∀ i, ∀ a ∈ s.spoke i, s.shared.tcb a ≠ none) :
    (tickListInsertSpoke cfg t (x.tickCtrMatch - s.shared.osTickCtr)).run (Queues.exec cfg space) s
      = some (.none, (s.enterWheel cfg t x.tickCtrMatch).setTcb t
          (x.inSpoke (x.tickCtrMatch.toNat % cfg.tickWheelSize))) := by
  have hmod := Nat.mod_lt x.tickCtrMatch.toNat cfg.tickWheelSize_pos
  have hlink : Queues.exec cfg space (.tickLink t (x.tickCtrMatch.toNat % cfg.tickWheelSize)
      (x.tickCtrMatch - s.shared.osTickCtr)) s = some ((), s.enterWheel cfg t x.tickCtrMatch) :=
    given_of ⟨hmod, ht, hspoke, hother _⟩ _
  simp [tickListInsertSpoke, hx, hlink]

/-- **`OS_TickListInsert`** -/
lemma run_osTickListInsert (ht : t ∈ space.tcbs) (hx : s.shared.tcb t = some x)
    (hspoke : ∀ i, t ∉ s.spoke i) (hother : ∀ i, ∀ a ∈ s.spoke i, s.shared.tcb a ≠ none)
    (time : Tick) (opt : BitVec 16) :
    (osTickListInsert cfg t time opt).run (Queues.exec cfg space) s
      = match tickDue s.shared.osTickCtr x time opt with
        | none => some (.timeZeroDly, s.setTcb t x.unwheeled)
        | some (m, prev) => some (.none, (s.enterWheel cfg t m).setTcb t
            ((x.dueAt m prev).inSpoke (m.toNat % cfg.tickWheelSize))) := by
  have hrefuse : (tickListRefuse t).run (Queues.exec cfg space) s
      = some (.timeZeroDly, s.setTcb t x.unwheeled) := by
    simp [tickListRefuse, hx, Queues.exec, given_of ht]
  have hinsert : ∀ m prev : Tick, (tickListInsertSpoke cfg t (m - s.shared.osTickCtr)).run
      (Queues.exec cfg space) (s.setTcb t (x.dueAt m prev))
        = some (.none, (s.enterWheel cfg t m).setTcb t
            ((x.dueAt m prev).inSpoke (m.toNat % cfg.tickWheelSize))) := by
    intro m prev
    have hrun : (tickListInsertSpoke cfg t (m - s.shared.osTickCtr)).run (Queues.exec cfg space)
        (s.setTcb t (x.dueAt m prev)) = _ :=
      run_tickListInsertSpoke ht (s.setTcb_tcb_self t (x.dueAt m prev)) hspoke fun i a ha => by
        rw [s.setTcb_tcb_of_ne _ (ne_of_mem_of_not_mem ha (hspoke i))]
        exact hother i a ha
    rwa [OsTcb.dueAt_tickCtrMatch, Queues.enterWheel_setTcb s t m _ hspoke, Queues.setTcb_setTcb]
      at hrun
  have hmatch : time - s.shared.osTickCtr - 1 + 1 = time - s.shared.osTickCtr :=
    BitVec.sub_add_cancel _ _
  have hadd : s.shared.osTickCtr + time - s.shared.osTickCtr = time := by
    rw [BitVec.add_comm, BitVec.add_sub_cancel]
  simp only [osTickListInsert, Prog.run_bind, run_get, run_tcb, hx, Option.map_some,
    Option.bind_some, Prog.run_ite, run_modifyTcb, hrefuse, hmatch, hinsert, tickDue]
  split_ifs with hopt hdelta htime hperiodic hnext
  · rfl
  · rfl
  · rfl
  · rfl
  · have hrun := hinsert (s.shared.osTickCtr + time) x.tickCtrPrev
    rwa [hadd] at hrun
  · rfl

namespace Queues

/-- A task is put into the wheel, if it waits for a limited time. -/
def enterWheelUnless (cfg : Config) (s : Queues) (t : ℕ) (timeout : Tick) : Queues :=
  if timeout = 0 then s else s.enterWheel cfg t (s.shared.osTickCtr + timeout)

/-- An `OS_PEND_DATA` of a task of the priority `prio` is put into the list of an object. -/
def joinPend (s : Queues) (o d prio : ℕ) : Queues :=
  { s with
    pend := Function.update s.pend o
      (placeBehind (fun e => (s.shared.prioOf e).getD 0 ≤ prio) d (s.pend o)) }

section Projections

variable (s : Queues) (t u i o d prio : ℕ) (timeout : Tick) (x : OsTcb)

@[simp] lemma enterWheelUnless_shared : (s.enterWheelUnless cfg t timeout).shared = s.shared := by
  unfold enterWheelUnless
  split_ifs <;> rfl

@[simp] lemma enterWheelUnless_rdy : (s.enterWheelUnless cfg t timeout).rdy = s.rdy := by
  unfold enterWheelUnless
  split_ifs <;> rfl

@[simp] lemma enterWheelUnless_pend : (s.enterWheelUnless cfg t timeout).pend = s.pend := by
  unfold enterWheelUnless
  split_ifs <;> rfl

@[simp] lemma enterWheelUnless_listed : (s.enterWheelUnless cfg t timeout).listed = s.listed := by
  unfold enterWheelUnless
  split_ifs <;> rfl

lemma enterWheelUnless_setTcb (h : ∀ i, t ∉ s.spoke i) :
    (s.setTcb t x).enterWheelUnless cfg t timeout
      = (s.enterWheelUnless cfg t timeout).setTcb t x := by
  unfold enterWheelUnless
  split_ifs
  · rfl
  · exact enterWheel_setTcb s t _ x h

@[simp] lemma joinPend_shared : (s.joinPend o d prio).shared = s.shared := rfl

@[simp] lemma joinPend_rdy : (s.joinPend o d prio).rdy = s.rdy := rfl

@[simp] lemma joinPend_spoke : (s.joinPend o d prio).spoke = s.spoke := rfl

@[simp] lemma joinPend_listed : (s.joinPend o d prio).listed = s.listed := rfl

end Projections

end Queues

/-- What `OS_TaskBlock` makes of a task. -/
def OsTcb.blocked (cfg : Config) (x : OsTcb) (osTickCtr timeout : Tick) : OsTcb :=
  if timeout = 0 then x.toState .pend
  else ((x.dueAt (osTickCtr + timeout) x.tickCtrPrev).inSpoke
    ((osTickCtr + timeout).toNat % cfg.tickWheelSize)).toState .pendTimeout

section Blocked

variable (cfg : Config) (x : OsTcb) (c timeout : Tick)

@[simp] lemma blocked_prio : (x.blocked cfg c timeout).prio = x.prio := by
  unfold OsTcb.blocked
  split_ifs <;> rfl

@[simp] lemma blocked_pendOn : (x.blocked cfg c timeout).pendOn = x.pendOn := by
  unfold OsTcb.blocked
  split_ifs <;> rfl

end Blocked

/-- **`OS_TaskBlock`** -/
lemma run_osTaskBlock (ht : t ∈ space.tcbs) (hx : s.shared.tcb t = some x)
    (hspoke : ∀ i, t ∉ s.spoke i) (hother : ∀ i, ∀ a ∈ s.spoke i, s.shared.tcb a ≠ none)
    (hrdy : t ∈ s.rdy x.prio) (timeout : Tick) :
    (osTaskBlock cfg t timeout).run (Queues.exec cfg space) s
      = some ((), ((s.leaveRdy t).enterWheelUnless cfg t timeout).setTcb t
          (x.blocked cfg s.shared.osTickCtr timeout)) := by
  have hremove : ∀ (y : OsTcb) (s' : Queues), y.prio = x.prio → s'.rdy = s.rdy →
      (osRdyListRemoveOf t).run (Queues.exec cfg space) (s'.setTcb t y)
        = some ((), (s'.leaveRdy t).setTcb t y) := fun y s' hprio hs' =>
    run_osRdyListRemoveOf (Queues.setTcb_tcb_self _ t y) (by simpa [hprio, hs'] using hrdy)
  by_cases hzero : timeout = 0
  · have hstate : (taskBlockState cfg t timeout).run (Queues.exec cfg space) s
        = some (.pend, s) := by
      simp [taskBlockState, hzero]
    simp only [osTaskBlock, Prog.run_bind, hstate, Option.bind_some, run_modifyTcb, hx,
      Option.map_some]
    rw [hremove]
    · rw [OsTcb.blocked, if_pos hzero, Queues.enterWheelUnless, if_pos hzero]
    · rfl
    · rfl
  · have hpos : timeout > 0 := by
      rw [gt_iff_lt, BitVec.lt_def]
      have hne : timeout.toNat ≠ 0 := fun h => hzero (BitVec.eq_of_toNat_eq h)
      simpa using Nat.pos_of_ne_zero hne
    have hdue : tickDue s.shared.osTickCtr x timeout osOptTimeTimeout
        = some (s.shared.osTickCtr + timeout, x.tickCtrPrev) := by
      simp only [tickDue, if_pos hpos, if_neg (by decide : ¬ osOptTimeTimeout = osOptTimeMatch),
        if_neg (by decide : ¬ osOptTimeTimeout = osOptTimePeriodic)]
    have hinsert : (osTickListInsert cfg t timeout osOptTimeTimeout).run (Queues.exec cfg space) s
        = _ := run_osTickListInsert ht hx hspoke hother timeout osOptTimeTimeout
    rw [hdue] at hinsert
    have hstate : (taskBlockState cfg t timeout).run (Queues.exec cfg space) s
        = some (.pendTimeout, (s.enterWheel cfg t (s.shared.osTickCtr + timeout)).setTcb t
            ((x.dueAt (s.shared.osTickCtr + timeout) x.tickCtrPrev).inSpoke
              ((s.shared.osTickCtr + timeout).toNat % cfg.tickWheelSize))) := by
      simp only [taskBlockState, if_pos hpos, Prog.run_bind, hinsert,
        Option.bind_some, Prog.run_pure, if_true]
    simp only [osTaskBlock, Prog.run_bind, hstate, Option.bind_some, run_modifyTcb,
      Queues.setTcb_tcb_self, Option.map_some, Queues.setTcb_setTcb]
    rw [hremove]
    · rw [OsTcb.blocked, if_neg hzero, Queues.enterWheelUnless, if_neg hzero]
      rfl
    · rfl
    · rfl

/-- A task that begins to wait for its own semaphore. -/
lemma run_osPend_none (ht : t ∈ space.tcbs) (hcur : s.shared.osTcbCurPtr = some t)
    (hx : s.shared.tcb t = some x) (hspoke : ∀ i, t ∉ s.spoke i)
    (hother : ∀ i, ∀ a ∈ s.spoke i, s.shared.tcb a ≠ none) (hrdy : t ∈ s.rdy x.prio)
    (cfg : Config) (pendingOn : PendOn) (timeout : Tick) :
    (osPend cfg none none pendingOn timeout).run (Queues.exec cfg space) s
      = some ((), ((s.leaveRdy t).enterWheelUnless cfg t timeout).setTcb t
          ((x.pending pendingOn).blocked cfg s.shared.osTickCtr timeout).unlisted) := by
  have hblock : (osTaskBlock cfg t timeout).run (Queues.exec cfg space)
      (s.setTcb t (x.pending pendingOn)) = _ :=
    run_osTaskBlock ht (s.setTcb_tcb_self t (x.pending pendingOn)) hspoke (fun i a ha => by
      rw [s.setTcb_tcb_of_ne _ (ne_of_mem_of_not_mem ha (hspoke i))]
      exact hother i a ha) hrdy timeout
  rw [Queues.leaveRdy_setTcb, Queues.enterWheelUnless_setTcb (s.leaveRdy t) t _ _ hspoke,
    Queues.setTcb_setTcb] at hblock
  simp only [osPend, Prog.run_bind, run_cur, hcur, Option.map_some, Option.bind_some, run_modifyTcb,
    hx, hblock, pendOnObj, Queues.setTcb_tcb_self, Queues.setTcb_setTcb]
  rfl

/-- What a new `OS_PEND_DATA` and a change of a task leave of the priorities of the others. -/
lemma prioOf_setPendData_setTcb {y : OsTcb} {e : ℕ} {f : OsPendData}
    (hx : s.shared.tcb t = some x) (hy : y.prio = x.prio) (he : e ≠ d) :
    ((s.setPendData d f).setTcb t y).shared.prioOf e = s.shared.prioOf e := by
  have hframe : ((s.setPendData d f).setTcb t y).shared.pendData e = s.shared.pendData e :=
    Function.update_of_ne he _ _
  rw [Shared.prioOf, Shared.prioOf, hframe]
  cases hdata : s.shared.pendData e with
  | none => rfl
  | some g =>
      rw [Option.bind_some, Option.bind_some]
      rcases eq_or_ne g.tcbPtr t with htcb | htcb
      · rw [htcb, Queues.setTcb_tcb_self, hx, Option.map_some, Option.map_some, hy]
      · rw [Queues.setTcb_tcb_of_ne _ _ htcb]
        rfl

/-- A task that begins to wait for an object. -/
lemma run_osPend_some (ht : t ∈ space.tcbs) (hcur : s.shared.osTcbCurPtr = some t)
    (hx : s.shared.tcb t = some x) (hspoke : ∀ i, t ∉ s.spoke i)
    (hother : ∀ i, ∀ a ∈ s.spoke i, s.shared.tcb a ≠ none) (hrdy : t ∈ s.rdy x.prio)
    (ho : o ∈ s.listed) (hd : d ∈ space.frames) (hdata : s.shared.pendData d ≠ none)
    (hnew : ∀ q, d ∉ s.pend q) (hprio : ∀ e ∈ s.pend o, s.shared.prioOf e ≠ none)
    (hlen : (s.pend o).length + 1 < 65536) (cfg : Config) (pendingOn : PendOn) (timeout : Tick) :
    (osPend cfg (some d) (some o) pendingOn timeout).run (Queues.exec cfg space) s
      = some ((), ((((s.leaveRdy t).enterWheelUnless cfg t timeout).joinPend o d x.prio).setPendData
          d ⟨t, o⟩).setTcb t
            (((x.pending pendingOn).blocked cfg s.shared.osTickCtr timeout).listedAt d 1)) := by
  obtain ⟨f, hf⟩ := Option.ne_none_iff_exists'.mp hdata
  obtain ⟨y, hy⟩ : ∃ y, ((x.pending pendingOn).blocked cfg s.shared.osTickCtr timeout).listedAt d 1
      = y := ⟨_, rfl⟩
  obtain ⟨s', hs'⟩ : ∃ s', (s.leaveRdy t).enterWheelUnless cfg t timeout = s' := ⟨_, rfl⟩
  have hyprio : y.prio = x.prio := by rw [← hy]; simp
  have hshared : s'.shared = s.shared := by rw [← hs']; simp
  have hpend : s'.pend = s.pend := by rw [← hs']; simp
  have hlisted : s'.listed = s.listed := by rw [← hs']; simp
  have hf' : s'.shared.pendData d = some f := hshared ▸ hf
  have hblock : (osTaskBlock cfg t timeout).run (Queues.exec cfg space)
      (s.setTcb t (x.pending pendingOn)) = _ :=
    run_osTaskBlock ht (s.setTcb_tcb_self t (x.pending pendingOn)) hspoke (fun i a ha => by
      rw [s.setTcb_tcb_of_ne _ (ne_of_mem_of_not_mem ha (hspoke i))]
      exact hother i a ha) hrdy timeout
  rw [Queues.leaveRdy_setTcb, Queues.enterWheelUnless_setTcb (s.leaveRdy t) t _ _ hspoke,
    Queues.setTcb_setTcb] at hblock
  -- the priorities that the insertion reads
  have hsame : ∀ e, e ≠ d →
      ((s'.setPendData d ⟨t, o⟩).setTcb t y).shared.prioOf e = s.shared.prioOf e := by
    intro e he
    rw [prioOf_setPendData_setTcb (hshared ▸ hx) hyprio he, hshared]
  have hself : ((s'.setPendData d ⟨t, o⟩).setTcb t y).shared.prioOf d = some x.prio := by
    have hframe : ((s'.setPendData d ⟨t, o⟩).setTcb t y).shared.pendData d = some ⟨t, o⟩ :=
      Function.update_self _ _ _
    rw [Shared.prioOf, hframe, Option.bind_some, Queues.setTcb_tcb_self, Option.map_some, hyprio]
  have hprios : ∀ e ∈ d :: s'.pend o,
      ((s'.setPendData d ⟨t, o⟩).setTcb t y).shared.prioOf e ≠ none := by
    intro e he
    rcases List.mem_cons.mp he with rfl | he
    · rw [hself]
      exact Option.some_ne_none _
    · rw [hpend] at he
      rw [hsame e (ne_of_mem_of_not_mem he (hnew o))]
      exact hprio e he
  have hplace : Queues.insertPend ((s'.setPendData d ⟨t, o⟩).setTcb t y) o d
      = placeBehind (fun e => (s'.shared.prioOf e).getD 0 ≤ x.prio) d (s'.pend o) := by
    refine placeBehind_congr fun e he => ?_
    rw [Queues.setTcb_pend, Queues.setPendData_pend, hpend] at he
    rw [hself, hsame e (ne_of_mem_of_not_mem he (hnew o)), hshared, Option.getD_some]
  have hinsert : Queues.exec cfg space (.pendInsertPrio o d) ((s'.setPendData d ⟨t, o⟩).setTcb t y)
      = some ((), { (s'.setPendData d ⟨t, o⟩).setTcb t y with
          pend := Function.update s'.pend o
            (Queues.insertPend ((s'.setPendData d ⟨t, o⟩).setTcb t y) o d) }) :=
    given_of ⟨by simpa [hlisted] using ho, hd, by simpa [hpend] using hnew, hprios,
      by simpa [hpend] using hlen⟩ _
  have hreset : Queues.exec cfg space (.pendDataReset d)
      ((s'.setPendData d { f with pendObjPtr := o }).setTcb t y)
        = some ((), (s'.setPendData d { f with pendObjPtr := o }).setTcb t y) :=
    given_of ⟨hd, by simpa [hpend] using hnew⟩ _
  rw [hplace] at hinsert
  rw [hs', Queues.setTcb_vars] at hblock
  simp only [osPend, Prog.run_bind, run_cur, hcur, Option.map_some, Option.bind_some, run_modifyTcb,
    hx, hblock, pendOnObj, osPendDataInit, pendDataInitLoop, run_require, run_modifyPendData,
    Queues.setTcb_pendData, hf', Queues.setTcb_tcb_self, ask_eq, Prog.run_call,
    Queues.setPendData_setTcb, Queues.setTcb_setTcb, hy, hreset, Queues.setPendData_pendData_self,
    Queues.setPendData_setPendData, Prog.run_pure, hinsert]
  rw [hs']
  rfl

end Runs

end Wgs.Ucos
