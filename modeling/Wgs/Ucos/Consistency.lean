import Wgs.Ucos.Rules

/-!
What holds of the queues whenever no service is at work.

A task that is ready is in the list of its priority, a task that has a spoke is in the list of that
spoke, and the `OS_PEND_DATA` of a task that waits for a semaphore is in the list of that semaphore;
nothing else is in a list (`Consistent`).  Each of the changes that the services are made of keeps
this.
-/

namespace Wgs.Ucos

open Foundation Ucos.Kernel

namespace OsTcb

/-- The task is in a ready list: a task that is delayed has been put into the tick wheel, unless its
time was over already. -/
def isReady (x : OsTcb) : Bool :=
  match x.taskState with
  | .rdy => true
  | .dly | .dlySuspended => x.tickSpokePtr.isNone
  | _ => false

/-- The task is delayed until `TickCtrMatch`. -/
def isDelayed (x : OsTcb) : Bool :=
  x.taskState.isDly && !x.taskState.isPend && x.tickSpokePtr.isSome

/-- The task is in a state with a delay, and not in the tick wheel. -/
def isLost (x : OsTcb) : Bool := x.taskState.isDly && x.tickSpokePtr.isNone

/-- The ready list of the task. -/
def readyAt (x : OsTcb) : Option ℕ := if x.isReady then some x.prio else none

/-- The fields of a task fit together. -/
structure Ok (cfg : Config) (space : Space) (pendData : Mem OsPendData) (t : ℕ) (x : OsTcb) :
    Prop where
  mem : t ∈ space.tcbs
  prio_lt : x.prio < cfg.prioMax
  pend : x.taskState.isPend = true ↔ x.pendOn ≠ .nothing
  free : x.pendOn ≠ .sem → x.pendDataTblPtr = none ∧ x.pendDataTblEntries = 0
  entry : x.pendOn = .sem → ∃ d o, x.pendDataTblPtr = some d ∧ x.pendDataTblEntries = 1
    ∧ pendData d = some ⟨t, o⟩
  spoke : ∀ i, x.tickSpokePtr = some i →
    i = x.tickCtrMatch.toNat % cfg.tickWheelSize ∧ x.taskState.isDly = true
  timed : x.taskState.isDly = true → x.taskState.isPend = true → x.tickSpokePtr ≠ none

section Ready

variable {cfg : Config} {space : Space} {pendData : Mem OsPendData} {t : ℕ} {x : OsTcb}

@[simp] lemma readyAt_of_isReady (h : x.isReady = true) : x.readyAt = some x.prio := if_pos h

@[simp] lemma readyAt_of_not_isReady (h : x.isReady = false) : x.readyAt = none := by
  simp [readyAt, h]

lemma isPend_of_isReady (h : x.isReady = true) : x.taskState.isPend = false := by
  unfold isReady at h
  cases hstate : x.taskState <;> simp_all [TaskState.isPend]

/-- A task whose delay is lost is in its ready list. -/
lemma Ok.isReady_of_isLost (hx : x.Ok cfg space pendData t) (h : x.isLost = true) :
    x.isReady = true := by
  obtain ⟨hdly, hoff⟩ := Bool.and_eq_true_iff.mp h
  have hnot : x.taskState.isPend = false := by
    by_contra hpend
    exact hx.timed hdly (eq_true_of_ne_false hpend) (Option.isNone_iff_eq_none.mp hoff)
  unfold isReady
  cases hstate : x.taskState <;> simp_all [TaskState.isDly, TaskState.isPend]

lemma not_isReady_of_isPend (h : x.taskState.isPend = true) : x.isReady = false := by
  by_contra hready
  simp [isPend_of_isReady (eq_true_of_ne_false hready)] at h

/-- A task that is ready is in no spoke. -/
lemma Ok.spoke_of_isReady (hx : x.Ok cfg space pendData t) (h : x.isReady = true) :
    x.tickSpokePtr = none := by
  cases hi : x.tickSpokePtr with
  | none => rfl
  | some i =>
      have hdly := (hx.spoke i hi).2
      unfold isReady at h
      cases hstate : x.taskState <;> simp_all [TaskState.isDly]

lemma spoke_of_isDelayed (h : x.isDelayed = true) : x.tickSpokePtr ≠ none := by
  intro hoff
  simp [isDelayed, hoff] at h

/-- A task that is ready waits for nothing. -/
lemma Ok.free_of_isReady (hx : x.Ok cfg space pendData t) (h : x.isReady = true) :
    x.pendOn = .nothing ∧ x.pendDataTblPtr = none ∧ x.pendDataTblEntries = 0 := by
  have hon : x.pendOn = .nothing := by
    by_contra hne
    simpa [isPend_of_isReady h] using hx.pend.mpr hne
  exact ⟨hon, hx.free (by simp [hon])⟩

end Ready

end OsTcb

/-- A task waits no longer, and is delayed no longer. -/
structure OsTcb.Freed (x y : OsTcb) : Prop where
  prio : y.prio = x.prio
  taskState : y.taskState = .rdy ∨ y.taskState = .suspended
  pendOn : y.pendOn = .nothing
  tickSpokePtr : y.tickSpokePtr = none
  pendDataTblPtr : y.pendDataTblPtr = none
  pendDataTblEntries : y.pendDataTblEntries = 0

namespace OsTcb

variable {cfg : Config} {space : Space} {pendData : Mem OsPendData} {t ts : ℕ} {x y : OsTcb}

lemma Freed.not_isLost (h : Freed x y) : y.isLost = false := by
  rcases h.taskState with hstate | hstate <;> simp [isLost, hstate, TaskState.isDly]

/-- The fields of a task that waits no longer fit together. -/
lemma Freed.ok (h : Freed x y) (hx : x.Ok cfg space pendData t) : y.Ok cfg space pendData t where
  mem := hx.mem
  prio_lt := h.prio ▸ hx.prio_lt
  pend := by rcases h.taskState with hstate | hstate <;> simp [hstate, h.pendOn, TaskState.isPend]
  free _ := ⟨h.pendDataTblPtr, h.pendDataTblEntries⟩
  entry hon := by simp [h.pendOn] at hon
  spoke i hi := by simp [h.tickSpokePtr] at hi
  timed hdly := by
    rcases h.taskState with hstate | hstate <;> simp [hstate, TaskState.isDly] at hdly

lemma Freed.toState (h : Freed x y) : Freed x (y.toState .suspended) :=
  ⟨h.prio, .inr rfl, h.pendOn, h.tickSpokePtr, h.pendDataTblPtr, h.pendDataTblEntries⟩

lemma freed_released {pendStatus : PendStatus} : Freed x (x.released pendStatus ts) where
  prio := by simp [released]
  taskState := by
    by_cases hsuspended : x.taskState.isSuspended = true <;> simp [released, hsuspended]
  pendOn := rfl
  tickSpokePtr := by simp [released]
  pendDataTblPtr := by simp [released]
  pendDataTblEntries := by simp [released]

lemma freed_expired (hx : x.Ok cfg space pendData t) (ts : ℕ) : Freed x (x.expired ts) := by
  unfold expired
  split_ifs with hpend
  · exact freed_released
  · have hon : x.pendOn = .nothing := by
      by_contra hne
      exact hpend (hx.pend.mpr hne)
    have hfree := hx.free (by simp [hon])
    refine ⟨by simp [awakened], ?_, by simpa [awakened] using hon, by simp [awakened],
      by simpa [awakened] using hfree.1, by simpa [awakened] using hfree.2⟩
    by_cases hsuspended : x.taskState.isSuspended = true <;> simp [awakened, hsuspended]

end OsTcb

/-! ### Places -/

namespace Shared

/-- The ready list of a task. -/
def rdyPlace (s : Shared) (t : ℕ) : Option ℕ := (s.tcb t).bind OsTcb.readyAt

/-- The spoke of a task. -/
def spokePlace (s : Shared) (t : ℕ) : Option ℕ := (s.tcb t).bind OsTcb.tickSpokePtr

/-- The object that an `OS_PEND_DATA` waits for. -/
def pendPlace (s : Shared) (d : ℕ) : Option ℕ :=
  (s.pendData d).bind fun e => (s.tcb e.tcbPtr).bind fun x =>
    if x.pendDataTblPtr = some d then some e.pendObjPtr else none

/-- `TickRemain`, as the wheel is ordered by it. -/
def remain (s : Shared) (t : ℕ) : ℕ := ((s.matchOf t).getD 0 - s.osTickCtr).toNat

/-- The priority by which the list of an object is ordered. -/
def prioKey (s : Shared) (d : ℕ) : ℕ := (s.prioOf d).getD 0

end Shared

/-- The lists have what the `OS_TCB`s and the `OS_PEND_DATA` say. -/
structure Consistent (cfg : Config) (space : Space) (s : Queues) : Prop where
  tcb : ∀ t x, s.shared.tcb t = some x → x.Ok cfg space s.shared.pendData t
  rdy : Placed s.rdy s.shared.rdyPlace
  spoke : Placed s.spoke s.shared.spokePlace
  pend : Placed s.pend s.shared.pendPlace
  tick_sorted : ∀ i, (s.spoke i).Pairwise fun a b => s.shared.remain a ≤ s.shared.remain b
  prio_sorted : ∀ o, (s.pend o).Pairwise fun d e => s.shared.prioKey d ≤ s.shared.prioKey e
  sem_alloc : ∀ o ∈ space.sems, s.shared.sem o ≠ none
  pendData_alloc : ∀ d ∈ space.frames, s.shared.pendData d ≠ none
  listed : ∀ o, o ∈ s.listed ↔ o ∈ space.sems ∧ ∃ k, s.shared.sem o = some k ∧ k.type = .sem
  waiting : ∀ o, s.pend o ≠ [] → o ∈ s.listed ∧ ∀ k, s.shared.sem o = some k → k.ctr = 0

/-- No task of the wheel is to be woken at the present tick. -/
def Settled (s : Queues) : Prop :=
  ∀ i, ∀ t ∈ s.spoke i, s.shared.matchOf t ≠ some s.shared.osTickCtr

namespace Consistent

variable {cfg : Config} {space : Space} {s : Queues} {t u o d p i : ℕ} {x y : OsTcb}

lemma mem_rdy (h : Consistent cfg space s) (hx : s.shared.tcb t = some x) :
    t ∈ s.rdy p ↔ x.isReady = true ∧ x.prio = p := by
  rw [h.rdy.mem, Shared.rdyPlace, hx, Option.bind_some, OsTcb.readyAt]
  split_ifs with hready <;> simp [hready]

lemma mem_spoke (h : Consistent cfg space s) (hx : s.shared.tcb t = some x) :
    t ∈ s.spoke i ↔ x.tickSpokePtr = some i := by
  rw [h.spoke.mem, Shared.spokePlace, hx, Option.bind_some]

/-- What is in a ready list is a task. -/
lemma of_mem_rdy (h : Consistent cfg space s) (ht : t ∈ s.rdy p) :
    ∃ x, s.shared.tcb t = some x ∧ x.isReady = true ∧ x.prio = p := by
  have hplace := (h.rdy.mem p t).mp ht
  obtain ⟨x, hx, -⟩ := Option.bind_eq_some_iff.mp hplace
  exact ⟨x, hx, (h.mem_rdy hx).mp ht⟩

/-- What is in a spoke is a task. -/
lemma of_mem_spoke (h : Consistent cfg space s) (ht : t ∈ s.spoke i) :
    ∃ x, s.shared.tcb t = some x ∧ x.tickSpokePtr = some i := by
  have hplace := (h.spoke.mem i t).mp ht
  obtain ⟨x, hx, -⟩ := Option.bind_eq_some_iff.mp hplace
  exact ⟨x, hx, (h.mem_spoke hx).mp ht⟩

/-- What is in the list of an object belongs to a task. -/
lemma of_mem_pend (h : Consistent cfg space s) (hd : d ∈ s.pend o) :
    ∃ t x, s.shared.pendData d = some ⟨t, o⟩ ∧ s.shared.tcb t = some x
      ∧ x.pendDataTblPtr = some d ∧ x.pendOn = .sem := by
  have hplace := (h.pend.mem o d).mp hd
  obtain ⟨⟨t, q⟩, he, hbind⟩ := Option.bind_eq_some_iff.mp hplace
  obtain ⟨x, hx, hif⟩ := Option.bind_eq_some_iff.mp hbind
  split_ifs at hif with hptr
  obtain rfl := Option.some_inj.mp hif
  refine ⟨t, x, he, hx, hptr, ?_⟩
  by_contra hon
  simp [((h.tcb t x hx).free hon).1] at hptr

/-- An `OS_PEND_DATA` is that of one task. -/
lemma entry_unique (h : Consistent cfg space s) {z : OsTcb} (hz : s.shared.tcb u = some z)
    (hd : z.pendDataTblPtr = some d) (he : s.shared.pendData d = some ⟨t, o⟩) : u = t := by
  have hok := h.tcb u z hz
  have hon : z.pendOn = .sem := by
    by_contra hne
    simp [(hok.free hne).1] at hd
  obtain ⟨e, q, hptr, -, hentry⟩ := hok.entry hon
  obtain rfl := Option.some_inj.mp (hptr.symm.trans hd)
  simp only [he, Option.some_inj, OsPendData.mk.injEq] at hentry
  exact hentry.1.symm

/-- A task that waits for an object is in the list of it. -/
lemma mem_pend_of_entry (h : Consistent cfg space s) (hx : s.shared.tcb t = some x)
    (hptr : x.pendDataTblPtr = some d) (he : s.shared.pendData d = some ⟨t, o⟩) : d ∈ s.pend o := by
  rw [h.pend.mem, Shared.pendPlace, he, Option.bind_some, hx, Option.bind_some, if_pos hptr]

/-- A task that is not ready is what a release expects. -/
lemma isWaiting (h : Consistent cfg space s) (hx : s.shared.tcb t = some x)
    (hnot : x.isReady = false) : Waiting cfg space s t x where
  mem := (h.tcb t x hx).mem
  tcb := hx
  spoke i := h.mem_spoke hx
  prio_lt := (h.tcb t x hx).prio_lt
  rdy p hp := by simp [((h.mem_rdy hx).mp hp).1] at hnot
  table := by
    by_cases hon : x.pendOn = .sem
    · obtain ⟨d, o, hptr, hentries, he⟩ := (h.tcb t x hx).entry hon
      have hd := h.mem_pend_of_entry hx hptr he
      exact .inr ⟨d, o, hptr, hentries, he, (h.waiting o (List.ne_nil_of_mem hd)).1, hd⟩
    · exact .inl ((h.tcb t x hx).free hon)

/-- One more task can wait for an object. -/
lemma pend_length_lt (h : Consistent cfg space s) (hx : s.shared.tcb t = some x)
    (hptr : x.pendDataTblPtr = none) (o : ℕ) : (s.pend o).length + 1 < 65536 := by
  -- whose `OS_PEND_DATA` it is
  let owner : ℕ → ℕ := fun d => ((s.shared.pendData d).map OsPendData.tcbPtr).getD 0
  have howner : ∀ d ∈ s.pend o, ∃ z, s.shared.tcb (owner d) = some z
      ∧ z.pendDataTblPtr = some d := by
    intro d hd
    obtain ⟨u, z, he, hz, hzd, -⟩ := h.of_mem_pend hd
    exact ⟨z, by simpa [owner, he] using hz, hzd⟩
  have hnodup : ((s.pend o).map owner).Nodup := by
    refine (h.pend.nodup o).map_on fun d hd e he heq => ?_
    obtain ⟨z, hz, hzd⟩ := howner d hd
    obtain ⟨w, hw, hwe⟩ := howner e he
    obtain rfl := Option.some_inj.mp (hz.symm.trans (heq ▸ hw))
    exact Option.some_inj.mp (hzd.symm.trans hwe)
  have hlen := space.length_succ_lt (t := t) hnodup (fun a ha => ?_) (h.tcb t x hx).mem fun ha => ?_
  · rwa [List.length_map] at hlen
  · obtain ⟨d, hd, rfl⟩ := List.mem_map.mp ha
    obtain ⟨z, hz, -⟩ := howner d hd
    exact (h.tcb _ z hz).mem
  · obtain ⟨d, hd, rfl⟩ := List.mem_map.mp ha
    obtain ⟨z, hz, hzd⟩ := howner d hd
    obtain rfl := Option.some_inj.mp (hz.symm.trans hx)
    simp [hptr] at hzd

end Consistent

/-! ### One `OS_TCB` is written -/

section Written

variable {cfg : Config} {space : Space} {s s' : Queues} {t u o d p i : ℕ} {x y : OsTcb}

lemma rdyPlace_setTcb :
    (s.setTcb t y).shared.rdyPlace = Function.update s.shared.rdyPlace t y.readyAt := by
  funext u
  rcases eq_or_ne u t with rfl | hu
  · simp [Shared.rdyPlace]
  · simp [Shared.rdyPlace, s.setTcb_tcb_of_ne y hu, hu]

lemma spokePlace_setTcb :
    (s.setTcb t y).shared.spokePlace = Function.update s.shared.spokePlace t y.tickSpokePtr := by
  funext u
  rcases eq_or_ne u t with rfl | hu
  · simp [Shared.spokePlace]
  · simp [Shared.spokePlace, s.setTcb_tcb_of_ne y hu, hu]

lemma matchOf_setTcb_of_ne (hu : u ≠ t) :
    (s.setTcb t y).shared.matchOf u = s.shared.matchOf u := by
  simp [Shared.matchOf, s.setTcb_tcb_of_ne y hu]

lemma remain_setTcb_of_ne (hu : u ≠ t) : (s.setTcb t y).shared.remain u = s.shared.remain u := by
  simp [Shared.remain, matchOf_setTcb_of_ne hu]

lemma remain_setTcb_self (hx : s.shared.tcb t = some x) (hmatch : y.tickCtrMatch = x.tickCtrMatch) :
    (s.setTcb t y).shared.remain t = s.shared.remain t := by
  simp [Shared.remain, Shared.matchOf, hx, hmatch]

/-- The priority of a task does not change, so that of an `OS_PEND_DATA` does not. -/
lemma prioOf_setTcb (hx : s.shared.tcb t = some x) (hprio : y.prio = x.prio) :
    (s.setTcb t y).shared.prioOf = s.shared.prioOf := by
  funext e
  rw [Shared.prioOf, Shared.prioOf, Queues.setTcb_pendData]
  cases s.shared.pendData e with
  | none => rfl
  | some f =>
      rw [Option.bind_some, Option.bind_some]
      rcases eq_or_ne f.tcbPtr t with htcb | htcb
      · rw [htcb, Queues.setTcb_tcb_self, hx, Option.map_some, Option.map_some, hprio]
      · rw [s.setTcb_tcb_of_ne y htcb]

lemma prioKey_setTcb (hx : s.shared.tcb t = some x) (hprio : y.prio = x.prio) :
    (s.setTcb t y).shared.prioKey = s.shared.prioKey := by
  funext e
  rw [Shared.prioKey, Shared.prioKey, prioOf_setTcb hx hprio]

lemma pendPlace_setTcb (hx : s.shared.tcb t = some x)
    (hptr : y.pendDataTblPtr = x.pendDataTblPtr) :
    (s.setTcb t y).shared.pendPlace = s.shared.pendPlace := by
  funext e
  rw [Shared.pendPlace, Shared.pendPlace, Queues.setTcb_pendData]
  cases s.shared.pendData e with
  | none => rfl
  | some f =>
      rw [Option.bind_some, Option.bind_some]
      rcases eq_or_ne f.tcbPtr t with htcb | htcb
      · rw [htcb, Queues.setTcb_tcb_self, hx, Option.bind_some, Option.bind_some, hptr]
      · rw [s.setTcb_tcb_of_ne y htcb]

namespace Consistent

/-- The fields of every task fit together when those of the one that is written do. -/
lemma ok_setTcb (h : Consistent cfg space s) (hok : y.Ok cfg space s.shared.pendData t) (u : ℕ)
    (z : OsTcb) (hz : (s.setTcb t y).shared.tcb u = some z) :
    z.Ok cfg space s.shared.pendData u := by
  rcases eq_or_ne u t with rfl | hu
  · rw [Queues.setTcb_tcb_self] at hz
    exact Option.some_inj.mp hz ▸ hok
  · rw [s.setTcb_tcb_of_ne y hu] at hz
    exact h.tcb u z hz

/-- The wheel stays in order when tasks leave it. -/
lemma tick_sorted_sublist (h : Consistent cfg space s) {L : ℕ → List ℕ}
    (hsub : ∀ i, (L i).Sublist (s.spoke i))
    (hkey : ∀ i, ∀ a ∈ L i, s'.shared.remain a = s.shared.remain a) (i : ℕ) :
    (L i).Pairwise fun a b => s'.shared.remain a ≤ s'.shared.remain b := by
  refine ((h.tick_sorted i).sublist (hsub i)).imp_of_mem fun ha hb hle => ?_
  rwa [hkey i _ ha, hkey i _ hb]

/-- An `OS_TCB` is written, and the ready lists are as it says. -/
lemma setTcbRdy (h : Consistent cfg space s) (hx : s.shared.tcb t = some x)
    (hok : y.Ok cfg space s.shared.pendData t) (hprio : y.prio = x.prio)
    (hspoke : y.tickSpokePtr = x.tickSpokePtr)
    (hmatch : x.tickSpokePtr ≠ none → y.tickCtrMatch = x.tickCtrMatch)
    (hptr : y.pendDataTblPtr = x.pendDataTblPtr) {rdy : ℕ → List ℕ}
    (hrdy : Placed rdy (Function.update s.shared.rdyPlace t y.readyAt)) :
    Consistent cfg space { s.setTcb t y with rdy := rdy } where
  tcb := h.ok_setTcb hok
  rdy := by
    change Placed rdy (s.setTcb t y).shared.rdyPlace
    rwa [rdyPlace_setTcb]
  spoke := by
    change Placed s.spoke (s.setTcb t y).shared.spokePlace
    have hplace : y.tickSpokePtr = s.shared.spokePlace t := by simp [Shared.spokePlace, hx, hspoke]
    rw [spokePlace_setTcb, hplace, Function.update_eq_self]
    exact h.spoke
  pend := by
    change Placed s.pend (s.setTcb t y).shared.pendPlace
    rw [pendPlace_setTcb hx hptr]
    exact h.pend
  tick_sorted := h.tick_sorted_sublist (fun _ => .refl _) fun i a ha => by
    rcases eq_or_ne a t with rfl | hne
    · exact remain_setTcb_self hx (hmatch (by simp [(h.mem_spoke hx).mp ha]))
    · exact remain_setTcb_of_ne hne
  prio_sorted := by
    change ∀ o, (s.pend o).Pairwise fun d e =>
      (s.setTcb t y).shared.prioKey d ≤ (s.setTcb t y).shared.prioKey e
    rw [prioKey_setTcb hx hprio]
    exact h.prio_sorted
  sem_alloc := h.sem_alloc
  pendData_alloc := h.pendData_alloc
  listed := h.listed
  waiting := h.waiting

/-- **An `OS_TCB` is written, and the task stays where it is.** -/
lemma setTcb (h : Consistent cfg space s) (hx : s.shared.tcb t = some x)
    (hok : y.Ok cfg space s.shared.pendData t) (hready : y.readyAt = x.readyAt)
    (hprio : y.prio = x.prio) (hspoke : y.tickSpokePtr = x.tickSpokePtr)
    (hmatch : x.tickSpokePtr ≠ none → y.tickCtrMatch = x.tickCtrMatch)
    (hptr : y.pendDataTblPtr = x.pendDataTblPtr) :
    Consistent cfg space (s.setTcb t y) := by
  refine h.setTcbRdy hx hok hprio hspoke hmatch hptr ?_
  have hplace : y.readyAt = s.shared.rdyPlace t := by simp [Shared.rdyPlace, hx, hready]
  rw [hplace, Function.update_eq_self]
  exact h.rdy

/-- **A task is ready now.**  It was in no ready list, and it is put into that of its priority. -/
lemma join (h : Consistent cfg space s) (hx : s.shared.tcb t = some x) (hnot : x.isReady = false)
    (hok : y.Ok cfg space s.shared.pendData t) (hready : y.isReady = true) (hprio : y.prio = x.prio)
    (hspoke : y.tickSpokePtr = x.tickSpokePtr)
    (hmatch : x.tickSpokePtr ≠ none → y.tickCtrMatch = x.tickCtrMatch)
    (hptr : y.pendDataTblPtr = x.pendDataTblPtr) {K : List ℕ} (hK : K.Perm (t :: s.rdy y.prio)) :
    Consistent cfg space ((s.setTcb t y).setRdy y.prio K) := by
  refine h.setTcbRdy hx hok hprio hspoke hmatch hptr ?_
  rw [OsTcb.readyAt_of_isReady hready]
  exact h.rdy.put (by simp [Shared.rdyPlace, hx, hnot]) hK

/-- **A task is not ready any more.** -/
lemma part (h : Consistent cfg space s) (hx : s.shared.tcb t = some x)
    (hok : y.Ok cfg space s.shared.pendData t) (hready : y.isReady = false)
    (hprio : y.prio = x.prio) (hspoke : y.tickSpokePtr = x.tickSpokePtr)
    (hmatch : x.tickSpokePtr ≠ none → y.tickCtrMatch = x.tickCtrMatch)
    (hptr : y.pendDataTblPtr = x.pendDataTblPtr) :
    Consistent cfg space ((s.leaveRdy t).setTcb t y) := by
  refine h.setTcbRdy hx hok hprio hspoke hmatch hptr ?_
  rw [OsTcb.readyAt_of_not_isReady hready]
  exact h.rdy.erase t

/-- **A ready list is reordered.** -/
lemma setRdy (h : Consistent cfg space s) {K : List ℕ} (hK : K.Perm (s.rdy p)) :
    Consistent cfg space (s.setRdy p K) :=
  { h with rdy := h.rdy.reorder hK }

/-- Who waits for an object, when a task leaves it. -/
lemma pendPlace_leave (h : Consistent cfg space s) (hx : s.shared.tcb t = some x)
    (hptr : y.pendDataTblPtr = none) (e : ℕ) :
    (s.setTcb t y).shared.pendPlace e
      = if x.pendDataTblPtr = some e then none else s.shared.pendPlace e := by
  rw [Shared.pendPlace, Shared.pendPlace, Queues.setTcb_pendData]
  cases he : s.shared.pendData e with
  | none => simp
  | some f =>
      rw [Option.bind_some, Option.bind_some]
      rcases eq_or_ne f.tcbPtr t with htcb | htcb
      · rw [htcb, Queues.setTcb_tcb_self, hx, Option.bind_some, Option.bind_some, hptr]
        split_ifs <;> simp_all
      · have hne : x.pendDataTblPtr ≠ some e := by
          intro hxe
          by_cases hon : x.pendOn = .sem
          · obtain ⟨d, o, hd, -, hdata⟩ := (h.tcb t x hx).entry hon
            obtain rfl := Option.some_inj.mp (hd.symm.trans hxe)
            exact htcb (congrArg OsPendData.tcbPtr (Option.some_inj.mp (he.symm.trans hdata)))
          · simp [((h.tcb t x hx).free hon).1] at hxe
        rw [s.setTcb_tcb_of_ne y htcb, if_neg hne]

/-- The lists of the objects, when a task leaves the one it waits for. -/
lemma pend_leave (h : Consistent cfg space s) (hx : s.shared.tcb t = some x)
    (hptr : y.pendDataTblPtr = none) :
    Placed (s.leavePend x.pendDataTblPtr).pend (s.setTcb t y).shared.pendPlace := by
  cases hd : x.pendDataTblPtr with
  | none => exact h.pend.congr fun e => by simp [h.pendPlace_leave hx hptr, hd]
  | some d =>
      refine (h.pend.erase d).congr fun e => ?_
      rw [h.pendPlace_leave hx hptr, hd]
      rcases eq_or_ne e d with rfl | he
      · simp
      · simp [he, he.symm]

/-- **A task leaves the tick wheel and the object it waits for.** -/
lemma leave (h : Consistent cfg space s) (hx : s.shared.tcb t = some x)
    (hok : y.Ok cfg space s.shared.pendData t) (hready : y.readyAt = x.readyAt)
    (hprio : y.prio = x.prio) (hspoke : y.tickSpokePtr = none) (hptr : y.pendDataTblPtr = none) :
    Consistent cfg space (((s.leaveSpoke t).leavePend x.pendDataTblPtr).setTcb t y) := by
  have hshared : (((s.leaveSpoke t).leavePend x.pendDataTblPtr).setTcb t y).shared
      = (s.setTcb t y).shared := by simp [Queues.setTcb]
  have hpend : (((s.leaveSpoke t).leavePend x.pendDataTblPtr).setTcb t y).pend
      = (s.leavePend x.pendDataTblPtr).pend := by
    cases x.pendDataTblPtr <;> rfl
  have hsub : ∀ o, ((s.leavePend x.pendDataTblPtr).pend o).Sublist (s.pend o) := fun o => by
    cases x.pendDataTblPtr with
    | none => exact .refl _
    | some d => exact List.erase_sublist
  have hwheel : (((s.leaveSpoke t).leavePend x.pendDataTblPtr).setTcb t y).spoke
      = fun i => (s.spoke i).erase t := by
    simp [Queues.leaveSpoke]
  constructor <;> simp only [hshared, hpend, hwheel]
  case tcb => exact h.ok_setTcb hok
  case rdy =>
    have hplace : y.readyAt = s.shared.rdyPlace t := by simp [Shared.rdyPlace, hx, hready]
    rw [rdyPlace_setTcb, hplace, Function.update_eq_self]
    simpa using h.rdy
  case spoke =>
    rw [spokePlace_setTcb, hspoke]
    exact h.spoke.erase t
  case pend => exact h.pend_leave hx hptr
  case tick_sorted =>
    refine h.tick_sorted_sublist (fun _ => List.erase_sublist) fun i a ha => ?_
    exact remain_setTcb_of_ne ((h.spoke.nodup i).mem_erase_iff.mp ha).1
  case prio_sorted =>
    rw [prioKey_setTcb hx hprio]
    exact fun o => (h.prio_sorted o).sublist (hsub o)
  case sem_alloc => exact h.sem_alloc
  case pendData_alloc => exact h.pendData_alloc
  case listed => simpa using h.listed
  case waiting =>
    refine fun o hne => ?_
    have hne' : s.pend o ≠ [] := fun hnil => hne (List.sublist_nil.mp (hnil ▸ hsub o))
    simpa using h.waiting o hne'

/-- **A task is released.** -/
lemma release (h : Consistent cfg space s) (hx : s.shared.tcb t = some x) (hnot : x.isReady = false)
    (hy : OsTcb.Freed x y) : Consistent cfg space (s.release t x.pendDataTblPtr y) := by
  have hok := h.tcb t x hx
  have hoff : (y.toState .suspended).isReady = false := rfl
  have hleave := h.leave hx (hy.toState.ok hok) (by simp [hnot, hoff]) hy.prio hy.tickSpokePtr
    hy.pendDataTblPtr
  unfold Queues.release
  split_ifs with hstate
  · have hjoin := hleave.join (y := y) (Queues.setTcb_tcb_self _ t _) hoff
      (by simpa using hy.ok hok) (by simp [OsTcb.isReady, hstate]) rfl rfl (fun _ => rfl) rfl
      (K := if y.prio = s.shared.osPrioCur then s.rdy y.prio ++ [t] else t :: s.rdy y.prio) (by
        rw [Queues.setTcb_rdy, Queues.leavePend_rdy, Queues.leaveSpoke_rdy]
        split_ifs
        · exact List.perm_append_singleton t _
        · exact .refl _)
    simpa [Queues.joinRdy] using hjoin
  · have hsame : y.toState .suspended = y := by
      rw [← hy.taskState.resolve_left hstate]
      rfl
    rwa [hsame] at hleave

/-- **A task is put into the tick wheel.** -/
lemma enter (h : Consistent cfg space s) (hx : s.shared.tcb t = some x)
    (hoff : x.tickSpokePtr = none) (hok : y.Ok cfg space s.shared.pendData t)
    (hready : y.readyAt = x.readyAt) (hprio : y.prio = x.prio)
    (hspoke : y.tickSpokePtr = some (y.tickCtrMatch.toNat % cfg.tickWheelSize))
    (hptr : y.pendDataTblPtr = x.pendDataTblPtr) :
    Consistent cfg space ((s.enterWheel cfg t y.tickCtrMatch).setTcb t y) := by
  have hshared : ((s.enterWheel cfg t y.tickCtrMatch).setTcb t y).shared = (s.setTcb t y).shared :=
    rfl
  have hnone : s.shared.spokePlace t = none := by simp [Shared.spokePlace, hx, hoff]
  constructor <;> simp only [hshared, Queues.setTcb_rdy, Queues.setTcb_pend, Queues.setTcb_listed,
    Queues.enterWheel_rdy, Queues.enterWheel_pend, Queues.enterWheel_listed, Queues.setTcb_spoke]
  case tcb => exact h.ok_setTcb hok
  case rdy =>
    have hplace : y.readyAt = s.shared.rdyPlace t := by simp [Shared.rdyPlace, hx, hready]
    rw [rdyPlace_setTcb, hplace, Function.update_eq_self]
    exact h.rdy
  case spoke =>
    rw [spokePlace_setTcb, hspoke]
    exact h.spoke.put hnone perm_placeBehind
  case pend =>
    rw [pendPlace_setTcb hx hptr]
    exact h.pend
  case tick_sorted =>
    intro i
    have hself : (s.setTcb t y).shared.remain t = (y.tickCtrMatch - s.shared.osTickCtr).toNat := by
      simp [Shared.remain, Shared.matchOf]
    have hkeep : ∀ i, ∀ a ∈ s.spoke i, (s.setTcb t y).shared.remain a = s.shared.remain a :=
      fun i a ha => remain_setTcb_of_ne (ne_of_mem_of_not_mem ha (h.spoke.notMem hnone i))
    have hold := h.tick_sorted_sublist (fun _ => .refl _) hkeep
    rcases eq_or_ne i (y.tickCtrMatch.toNat % cfg.tickWheelSize) with rfl | hi
    · have hrest : ∀ a, a ≠ t → (s.setTcb t y).shared.remain a
          = ((s.shared.matchOf a).getD 0 - s.shared.osTickCtr).toNat := fun a ha =>
        remain_setTcb_of_ne ha
      simp only [Queues.enterWheel, Queues.joinSpoke, Function.update_self, Queues.insertTick]
      refine pairwise_placeBehind (hold _) (fun a ha => ?_) fun a ha => ?_
      · rcases eq_or_ne a t with rfl | hne
        · exact le_refl _
        · rw [hrest a hne, hself]
          exact (BitVec.lt_def.mp (of_decide_eq_true ha)).le
      · rcases eq_or_ne a t with rfl | hne
        · exact le_refl _
        · rw [hrest a hne, hself]
          exact not_lt.mp fun hlt => of_decide_eq_false ha (BitVec.lt_def.mpr hlt)
    · simp only [Queues.enterWheel, Queues.joinSpoke, Function.update_of_ne hi]
      exact hold i
  case prio_sorted =>
    rw [prioKey_setTcb hx hprio]
    exact h.prio_sorted
  case sem_alloc => exact h.sem_alloc
  case pendData_alloc => exact h.pendData_alloc
  case listed => exact h.listed
  case waiting => exact h.waiting

/-- **An `OS_PEND_DATA` is put into the list of an object**, and the task waits for it. -/
lemma wait (h : Consistent cfg space s) (hx : s.shared.tcb t = some x)
    (hfree : x.pendDataTblPtr = none)
    (hok : y.Ok cfg space (Function.update s.shared.pendData d (some ⟨t, o⟩)) t)
    (hready : y.readyAt = x.readyAt) (hprio : y.prio = x.prio)
    (hspoke : y.tickSpokePtr = x.tickSpokePtr) (hmatch : y.tickCtrMatch = x.tickCtrMatch)
    (hptr : y.pendDataTblPtr = some d) (ho : o ∈ s.listed)
    (hctr : ∀ k, s.shared.sem o = some k → k.ctr = 0)
    (hnew : ∀ u z, s.shared.tcb u = some z → z.pendDataTblPtr ≠ some d) :
    Consistent cfg space (((s.joinPend o d x.prio).setPendData d ⟨t, o⟩).setTcb t y) := by
  have hnone : s.shared.pendPlace d = none := by
    refine h.pend.place_eq_none fun q hq => ?_
    obtain ⟨u, z, -, hz, hzd, -⟩ := h.of_mem_pend hq
    exact hnew u z hz hzd
  -- what depends on the tasks alone is as if only the `OS_TCB` were written
  have hrdy : (((s.joinPend o d x.prio).setPendData d ⟨t, o⟩).setTcb t y).shared.rdyPlace
      = (s.setTcb t y).shared.rdyPlace := rfl
  have htick : (((s.joinPend o d x.prio).setPendData d ⟨t, o⟩).setTcb t y).shared.spokePlace
      = (s.setTcb t y).shared.spokePlace := rfl
  have hremain : (((s.joinPend o d x.prio).setPendData d ⟨t, o⟩).setTcb t y).shared.remain
      = (s.setTcb t y).shared.remain := rfl
  have hkey : ∀ e, e ≠ d →
      (((s.joinPend o d x.prio).setPendData d ⟨t, o⟩).setTcb t y).shared.prioKey e
        = s.shared.prioKey e := fun e he =>
    congrArg (Option.getD · 0) (prioOf_setPendData_setTcb (s := s.joinPend o d x.prio) hx hprio he)
  have hself : (((s.joinPend o d x.prio).setPendData d ⟨t, o⟩).setTcb t y).shared.prioKey d
      = x.prio := by
    simp [Shared.prioKey, Shared.prioOf, hprio]
  constructor
  case tcb =>
    intro u z hz
    rcases eq_or_ne u t with rfl | hu
    · rw [Queues.setTcb_tcb_self] at hz
      exact Option.some_inj.mp hz ▸ hok
    · rw [Queues.setTcb_tcb_of_ne _ _ hu] at hz
      have hz' : s.shared.tcb u = some z := hz
      refine { h.tcb u z hz' with entry := fun hon => ?_ }
      obtain ⟨e, q, he, hentries, hdata⟩ := (h.tcb u z hz').entry hon
      have hne : e ≠ d := fun heq => hnew u z hz' (heq ▸ he)
      exact ⟨e, q, he, hentries, (Function.update_of_ne hne _ _).trans hdata⟩
  case rdy =>
    have hplace : y.readyAt = s.shared.rdyPlace t := by simp [Shared.rdyPlace, hx, hready]
    rw [hrdy, rdyPlace_setTcb, hplace, Function.update_eq_self]
    exact h.rdy
  case spoke =>
    have hplace : y.tickSpokePtr = s.shared.spokePlace t := by simp [Shared.spokePlace, hx, hspoke]
    rw [htick, spokePlace_setTcb, hplace, Function.update_eq_self]
    exact h.spoke
  case pend =>
    refine (h.pend.put hnone perm_placeBehind).congr fun e => ?_
    rcases eq_or_ne e d with rfl | he
    · simp [Shared.pendPlace, hptr]
    · have hframe : (((s.joinPend o d x.prio).setPendData d ⟨t, o⟩).setTcb t y).shared.pendData e
          = s.shared.pendData e := Function.update_of_ne he _ _
      rw [Function.update_of_ne he, Shared.pendPlace, Shared.pendPlace, hframe]
      cases s.shared.pendData e with
      | none => rfl
      | some f =>
          rw [Option.bind_some, Option.bind_some]
          rcases eq_or_ne f.tcbPtr t with htcb | htcb
          · simp [htcb, hx, hptr, hfree, he.symm]
          · rw [Queues.setTcb_tcb_of_ne _ _ htcb]
            rfl
  case tick_sorted =>
    rw [hremain]
    refine h.tick_sorted_sublist (fun _ => .refl _) fun i a _ => ?_
    rcases eq_or_ne a t with rfl | ha
    · exact remain_setTcb_self hx hmatch
    · exact remain_setTcb_of_ne ha
  case prio_sorted =>
    intro q
    have hold : ∀ q, (s.pend q).Pairwise fun e f =>
        (((s.joinPend o d x.prio).setPendData d ⟨t, o⟩).setTcb t y).shared.prioKey e
          ≤ (((s.joinPend o d x.prio).setPendData d ⟨t, o⟩).setTcb t y).shared.prioKey f := by
      refine fun q => (h.prio_sorted q).imp_of_mem fun he hf hle => ?_
      rwa [hkey _ (ne_of_mem_of_not_mem he (h.pend.notMem hnone q)),
        hkey _ (ne_of_mem_of_not_mem hf (h.pend.notMem hnone q))]
    have hlist : (((s.joinPend o d x.prio).setPendData d ⟨t, o⟩).setTcb t y).pend
        = Function.update s.pend o
            (placeBehind (fun e => s.shared.prioKey e ≤ x.prio) d (s.pend o)) := rfl
    rw [hlist]
    rcases eq_or_ne q o with rfl | hq
    · rw [Function.update_self]
      refine pairwise_placeBehind (hold q) (fun e he => ?_) fun e he => ?_
      · rcases eq_or_ne e d with rfl | hne
        · exact le_refl _
        · rw [hkey e hne, hself]
          exact of_decide_eq_true he
      · rcases eq_or_ne e d with rfl | hne
        · exact le_refl _
        · rw [hkey e hne, hself]
          exact (not_le.mp (of_decide_eq_false he)).le
    · rw [Function.update_of_ne hq]
      exact hold q
  case sem_alloc => exact h.sem_alloc
  case pendData_alloc =>
    intro e he
    rcases eq_or_ne e d with rfl | hne
    · simp
    · exact (Function.update_of_ne hne _ _).trans_ne (h.pendData_alloc e he)
  case listed => exact h.listed
  case waiting =>
    intro q hq
    rcases eq_or_ne q o with rfl | hne
    · exact ⟨ho, hctr⟩
    · exact h.waiting q (by simpa [Queues.joinPend, hne] using hq)

/-- **A task is created**, in no list yet. -/
lemma fresh (h : Consistent cfg space s) (hx : s.shared.tcb t = none)
    (hok : y.Ok cfg space s.shared.pendData t) (hready : y.readyAt = none)
    (hspoke : y.tickSpokePtr = none) (hptr : y.pendDataTblPtr = none) :
    Consistent cfg space (s.setTcb t y) where
  tcb := h.ok_setTcb hok
  rdy := by
    have hplace : y.readyAt = s.shared.rdyPlace t := by simp [Shared.rdyPlace, hx, hready]
    rw [rdyPlace_setTcb, hplace, Function.update_eq_self]
    exact h.rdy
  spoke := by
    have hplace : y.tickSpokePtr = s.shared.spokePlace t := by simp [Shared.spokePlace, hx, hspoke]
    rw [spokePlace_setTcb, hplace, Function.update_eq_self]
    exact h.spoke
  pend := by
    refine h.pend.congr fun e => ?_
    rw [Shared.pendPlace, Shared.pendPlace, Queues.setTcb_pendData]
    cases s.shared.pendData e with
    | none => rfl
    | some f =>
        rw [Option.bind_some, Option.bind_some]
        rcases eq_or_ne f.tcbPtr t with htcb | htcb
        · simp [htcb, hx, hptr]
        · rw [s.setTcb_tcb_of_ne y htcb]
  tick_sorted := by
    refine h.tick_sorted_sublist (fun _ => .refl _) fun i a ha => remain_setTcb_of_ne ?_
    rintro rfl
    obtain ⟨x, hx', -⟩ := h.of_mem_spoke ha
    simp [hx] at hx'
  prio_sorted o := by
    have hkey : ∀ e ∈ s.pend o, (s.setTcb t y).shared.prioKey e = s.shared.prioKey e := by
      intro e he
      obtain ⟨u, z, hdata, hz, -⟩ := h.of_mem_pend he
      have hu : u ≠ t := by
        rintro rfl
        simp [hx] at hz
      simp [Shared.prioKey, Shared.prioOf, hdata, s.setTcb_tcb_of_ne y hu]
    refine (h.prio_sorted o).imp_of_mem fun he hf hle => ?_
    rwa [hkey _ he, hkey _ hf]
  sem_alloc := h.sem_alloc
  pendData_alloc := h.pendData_alloc
  listed := h.listed
  waiting := h.waiting

/-- **A semaphore is written.** -/
lemma setSem (h : Consistent cfg space s) {k k' : OsSem} (hk : s.shared.sem o = some k)
    (htype : k'.type = k.type) (hctr : s.pend o ≠ [] → k'.ctr = k.ctr) :
    Consistent cfg space (s.setSem o k') :=
  { h with
    sem_alloc := fun q hq => by
      rcases eq_or_ne q o with rfl | hne
      · simp
      · exact (Function.update_of_ne hne _ _).trans_ne (h.sem_alloc q hq)
    listed := fun q => by
      rcases eq_or_ne q o with rfl | hne
      · simpa [hk, htype] using h.listed q
      · have hframe : (s.setSem o k').shared.sem q = s.shared.sem q := Function.update_of_ne hne _ _
        rw [hframe]
        exact h.listed q
    waiting := fun q hq => by
      obtain ⟨hlisted, hzero⟩ := h.waiting q hq
      refine ⟨hlisted, fun j hj => ?_⟩
      rcases eq_or_ne q o with rfl | hne
      · rw [Queues.setSem_sem_self] at hj
        rw [← Option.some_inj.mp hj, hctr hq]
        exact hzero k hk
      · exact hzero j ((Function.update_of_ne hne _ _).symm.trans hj) }

/-- **A semaphore is created.** -/
lemma list (h : Consistent cfg space s) {k' : OsSem} (ho : o ∈ space.sems) (hnew : o ∉ s.listed)
    (htype : k'.type = .sem) :
    Consistent cfg space { s.setSem o k' with listed := insert o s.listed } :=
  { h with
    sem_alloc := fun q hq => by
      rcases eq_or_ne q o with rfl | hne
      · simp
      · exact (Function.update_of_ne hne _ _).trans_ne (h.sem_alloc q hq)
    listed := fun q => by
      rcases eq_or_ne q o with rfl | hne
      · simp [ho, htype]
      · have hframe : (s.setSem o k').shared.sem q = s.shared.sem q := Function.update_of_ne hne _ _
        rw [Set.mem_insert_iff, or_iff_right hne, hframe]
        exact h.listed q
    waiting := fun q hq => by
      obtain ⟨hlisted, hzero⟩ := h.waiting q hq
      have hne : q ≠ o := ne_of_mem_of_not_mem hlisted hnew
      exact ⟨.inr hlisted, fun j hj => hzero j ((Function.update_of_ne hne _ _).symm.trans hj)⟩ }

/-- **Variables of the kernel are written**, other than `OSTickCtr`. -/
lemma setVars (h : Consistent cfg space s) (v : OsVars) (hctr : v.osTickCtr = s.shared.osTickCtr) :
    Consistent cfg space { s with shared := { s.shared with toOsVars := v } } :=
  { h with
    tick_sorted := fun i => by
      refine (h.tick_sorted i).imp fun hle => ?_
      simpa [Shared.remain, Shared.matchOf, hctr] using hle }

/-- **`OSTickCtr` is incremented.** -/
lemma tick (h : Consistent cfg space s) (hsettled : Settled s) :
    Consistent cfg space
      { s with shared := { s.shared with osTickCtr := s.shared.osTickCtr + 1 } } := by
  have hkey : ∀ i, ∀ a ∈ s.spoke i,
      ((s.shared.matchOf a).getD 0 - (s.shared.osTickCtr + 1)).toNat + 1 = s.shared.remain a := by
    intro i a ha
    obtain ⟨x, hx, -⟩ := h.of_mem_spoke ha
    have hne := hsettled i a ha
    simp only [Shared.remain, Shared.matchOf, hx, Option.map_some, Option.getD_some, ne_eq,
      Option.some_inj] at hne ⊢
    bv_omega
  refine { h with tick_sorted := fun i => (h.tick_sorted i).imp_of_mem fun {a b} ha hb hle => ?_ }
  rw [← hkey i a ha, ← hkey i b hb] at hle
  exact Nat.le_of_succ_le_succ hle

/-- A task that is ready could be suspended. -/
lemma suspend_ok (hx : x.Ok cfg space s.shared.pendData t) (hready : x.isReady = true) :
    (x.toState .suspended).Ok cfg space s.shared.pendData t := by
  obtain ⟨hon, hptr, hentries⟩ := hx.free_of_isReady hready
  have hoff := hx.spoke_of_isReady hready
  constructor
  case mem => exact hx.mem
  case prio_lt => exact hx.prio_lt
  case pend => simp [hon, TaskState.isPend]
  case free => exact fun _ => ⟨hptr, hentries⟩
  case entry => simp [hon]
  case spoke => simp [hoff]
  case timed => simp [TaskState.isDly]

/-- **A task is delayed**: it leaves its ready list for the tick wheel. -/
lemma delay (h : Consistent cfg space s) (hx : s.shared.tcb t = some x) (hready : x.isReady = true)
    (hok : y.Ok cfg space s.shared.pendData t) (hnot : y.isReady = false) (hprio : y.prio = x.prio)
    (hspoke : y.tickSpokePtr = some (y.tickCtrMatch.toNat % cfg.tickWheelSize))
    (hptr : y.pendDataTblPtr = none) :
    Consistent cfg space (((s.leaveRdy t).enterWheel cfg t y.tickCtrMatch).setTcb t y) := by
  have hok' := h.tcb t x hx
  have hoff := hok'.spoke_of_isReady hready
  have hwheel : ∀ i, t ∉ s.spoke i := fun i hi => by simp [(h.mem_spoke hx).mp hi] at hoff
  have hpart := h.part hx (suspend_ok hok' hready) rfl rfl rfl (fun _ => rfl) rfl
  have henter := hpart.enter (y := y) (Queues.setTcb_tcb_self _ t _) hoff (by simpa using hok)
    (OsTcb.readyAt_of_not_isReady hnot) hprio hspoke
    (hptr.trans (hok'.free_of_isReady hready).2.1.symm)
  rwa [Queues.enterWheel_setTcb (s.leaveRdy t) t _ _ hwheel, Queues.setTcb_setTcb] at henter

/-- An insertion into the list of an object does not see a task that keeps its priority. -/
lemma joinPend_setTcb (hx : s.shared.tcb t = some x) (hprio : y.prio = x.prio) :
    (s.setTcb t y).joinPend o d p = (s.joinPend o d p).setTcb t y := by
  rw [Queues.joinPend, Queues.joinPend, prioOf_setTcb hx hprio]
  rfl

/-- **A task waits for an object**, for a limited time or not. -/
lemma block (h : Consistent cfg space s) (hx : s.shared.tcb t = some x) (hready : x.isReady = true)
    (ho : o ∈ s.listed) (hctr : ∀ k, s.shared.sem o = some k → k.ctr = 0)
    (hnew : ∀ u z, s.shared.tcb u = some z → z.pendDataTblPtr ≠ some d) (timeout : Tick) :
    Consistent cfg space (((((s.leaveRdy t).enterWheelUnless cfg t timeout).joinPend o d
      x.prio).setPendData d ⟨t, o⟩).setTcb t
        (((x.pending .sem).blocked cfg s.shared.osTickCtr timeout).listedAt d 1)) := by
  have hok := h.tcb t x hx
  have hoff := hok.spoke_of_isReady hready
  have hwheel : ∀ i, t ∉ s.spoke i := fun i hi => by simp [(h.mem_spoke hx).mp hi] at hoff
  have hptr := (hok.free_of_isReady hready).2.1
  have hpart := h.part hx (suspend_ok hok hready) rfl rfl rfl (fun _ => rfl) rfl
  have hnew' : ∀ u z, ((s.leaveRdy t).setTcb t (x.toState .suspended)).shared.tcb u = some z →
      z.pendDataTblPtr ≠ some d := by
    intro u z hz
    rcases eq_or_ne u t with rfl | hu
    · rw [Queues.setTcb_tcb_self] at hz
      simp [← Option.some_inj.mp hz, hptr]
    · rw [Queues.setTcb_tcb_of_ne _ _ hu] at hz
      exact hnew u z hz
  -- the task waits, and then it is put into the wheel
  have hwait := hpart.wait (o := o) (d := d) (y := ((x.pending .sem).toState .pend).listedAt d 1)
    (Queues.setTcb_tcb_self _ t _) hptr
    ⟨hok.mem, hok.prio_lt, by simp [TaskState.isPend], by simp, fun _ => ⟨d, o, rfl, rfl, by simp⟩,
      by simp [hoff], by simp [TaskState.isDly]⟩ rfl rfl rfl rfl rfl ho hctr hnew'
  have hjoin : ((s.leaveRdy t).setTcb t (x.toState .suspended)).joinPend o d x.prio
      = ((s.leaveRdy t).joinPend o d x.prio).setTcb t (x.toState .suspended) :=
    joinPend_setTcb (s := s.leaveRdy t) hx rfl
  rw [OsTcb.toState_prio, hjoin, Queues.setPendData_setTcb, Queues.setTcb_setTcb] at hwait
  by_cases hzero : timeout = 0
  · rw [Queues.enterWheelUnless, if_pos hzero, OsTcb.blocked, if_pos hzero]
    exact hwait
  · rw [Queues.enterWheelUnless, if_neg hzero, OsTcb.blocked, if_neg hzero]
    have henter := hwait.enter (Queues.setTcb_tcb_self _ t _) hoff
      (y := ((((x.pending .sem).dueAt (s.shared.osTickCtr + timeout) x.tickCtrPrev).inSpoke
        ((s.shared.osTickCtr + timeout).toNat % cfg.tickWheelSize)).toState .pendTimeout).listedAt
          d 1)
      ⟨hok.mem, hok.prio_lt, by simp [TaskState.isPend], by simp,
        fun _ => ⟨d, o, rfl, rfl, by simp⟩, by simp [TaskState.isDly, eq_comm], by simp⟩
      rfl rfl rfl rfl
    rwa [Queues.enterWheel_setTcb (((s.leaveRdy t).joinPend o d x.prio).setPendData d ⟨t, o⟩) t _ _
      hwheel, Queues.setTcb_setTcb] at henter

end Consistent

end Written

end Wgs.Ucos
