import Wgs.Ucos.Switches

/-!
Time in runs of the kernel.

An update of the tick list looks at one spoke of the wheel, from its first task on, and ends the
waits that are over now, in the whole wheel (`kernel_tick`).  So a delay lasts as many updates as it
is told (`kernel_delay`), whatever services of `Call` are called by others.  A delay that is over
when `OSTimeDly` or `OSTimeDlyHMSM` is called is refused, but the state of the task says then that
it is delayed: its ready list has only tasks that are ready as long as no such call is made, and no
longer (`kernel_ready_iff`).  The runs are those in which `OSTaskSemPendAbort` aborts no wait for
another object.
-/

namespace Wgs.Ucos

open Foundation KernelState

variable {cfg : Config} {space : Space}

/-! ### One tick -/

/-- **An update of the tick list ends the waits that are over**, and no others: those of the tasks
in the wheel that are to be woken at the new tick.  A task that waited for an object learns that its
time is over. -/
theorem kernel_tick (cfg : Config) (space : Space) (mem : Memory space) (es : List Event)
    (s s' : KernelState cfg) (h : Reaches (CheckedNext space) (KernelState.osInit cfg mem) es s)
    (ts : ℕ → ℕ) (hs : CheckedNext space s (.osTickListUpdate ts) s') :
    s'.machine.shared.osTickCtr = s.machine.shared.osTickCtr + 1
    ∧ ∀ t x, s.machine.shared.tcb t = some x →
      (¬ (x.tickSpokePtr ≠ none ∧ x.tickCtrMatch = s.machine.shared.osTickCtr + 1) →
        s'.machine.shared.tcb t = some x)
      ∧ (x.tickSpokePtr ≠ none → x.tickCtrMatch = s.machine.shared.osTickCtr + 1 →
        ∃ y, s'.machine.shared.tcb t = some y ∧ y.tickSpokePtr = none ∧ y.pendOn = .nothing
          ∧ y.pendDataTblPtr = none
          ∧ y.taskState = (if x.taskState.isSuspended then .suspended else .rdy)
          ∧ (x.taskState.isPend = true → y.pendStatus = .timeout ∧ y.ts = ts t)) := by
  obtain ⟨q, hq⟩ := exists_models h
  obtain ⟨q', hq', hf⟩ := hq.next hs
  rw [hq.refines.shared, hq'.refines.shared]
  refine ⟨hf.osTickCtr, fun t x hx => ?_⟩
  obtain ⟨y, hy, hchanges⟩ := hf.tcb t x hx
  obtain rfl : y = x.atTick (q.shared.osTickCtr + 1) (ts t) := hchanges
  refine ⟨fun hnot => ?_, fun hspoke hdue => ⟨_, hy, ?_⟩⟩
  · rw [hy, OsTcb.atTick, if_neg hnot]
  · rw [OsTcb.atTick, if_pos ⟨hspoke, hdue⟩]
    have hfreed := OsTcb.freed_expired (hq.sound.consistent.tcb t x hx) (ts t)
    refine ⟨hfreed.tickSpokePtr, hfreed.pendOn, hfreed.pendDataTblPtr, ?_, fun hpend => ?_⟩
    · unfold OsTcb.expired
      split_ifs <;> simp_all [OsTcb.released, OsTcb.awakened]
    · simp [OsTcb.expired, hpend, OsTcb.released]

/-- The tick task updates the tick list. -/
def tickEvent : Event := .osTickListUpdate fun _ => 0

def tickState : KernelState .template := waitState.after tickEvent

set_option maxRecDepth 2000 in
lemma reaches_tickState :
    Reaches (CheckedNext .five) (KernelState.osInit .template (.zeroed .five))
      (waitRun ++ [tickEvent]) tickState :=
  .step reaches_waitState (next_after reaches_waitState ⟨rfl, rfl, rfl⟩ id)

set_option maxRecDepth 2000 in
lemma next_tickState : CheckedNext .five tickState tickEvent (tickState.after tickEvent) :=
  next_after reaches_tickState ⟨rfl, rfl, rfl⟩ id

set_option maxRecDepth 2000 in
/-- At the second tick the delay of a task is over, and one task has waited long enough for the
semaphore; the other one waits on. -/
theorem kernel_tick_two :
    (∃ y, (tickState.after tickEvent).machine.shared.tcb 6 = some y ∧ y.tickSpokePtr = none
      ∧ y.taskState = .rdy)
    ∧ (∃ y, (tickState.after tickEvent).machine.shared.tcb 4 = some y ∧ y.pendOn = .nothing
      ∧ y.taskState = .rdy ∧ y.pendStatus = .timeout)
    ∧ (tickState.after tickEvent).machine.shared.tcb 5 = tickState.machine.shared.tcb 5 := by
  obtain ⟨-, htcb⟩ := kernel_tick _ _ _ _ _ _ reaches_tickState (fun _ => 0) next_tickState
  have hdelayed : (tickState.machine.shared.tcb 6).map (fun x =>
      (x.tickSpokePtr, x.tickCtrMatch, x.taskState)) = some (some 2, 2, .dly) := rfl
  have hwaits : (tickState.machine.shared.tcb 4).map (fun x =>
      (x.tickSpokePtr, x.tickCtrMatch, x.taskState)) = some (some 2, 2, .pendTimeout) := rfl
  have hlonger : (tickState.machine.shared.tcb 5).map OsTcb.tickCtrMatch = some 5 := rfl
  obtain ⟨x, hx, hfields⟩ := Option.map_eq_some_iff.mp hdelayed
  obtain ⟨z, hz, hfields'⟩ := Option.map_eq_some_iff.mp hwaits
  obtain ⟨w, hw, hmatch⟩ := Option.map_eq_some_iff.mp hlonger
  simp only [Prod.mk.injEq] at hfields hfields'
  refine ⟨?_, ?_, ?_⟩
  · obtain ⟨y, hy, hspoke, -, -, hstate, -⟩ := (htcb 6 x hx).2 (by simp [hfields.1]) hfields.2.1
    exact ⟨y, hy, hspoke, by simpa [hfields.2.2, TaskState.isSuspended] using hstate⟩
  · obtain ⟨y, hy, -, hon, -, hstate, hstatus⟩ :=
      (htcb 4 z hz).2 (by simp [hfields'.1]) hfields'.2.1
    refine ⟨y, hy, hon, by simpa [hfields'.2.2, TaskState.isSuspended] using hstate, ?_⟩
    exact (hstatus (by rw [hfields'.2.2]; rfl)).1
  · have hctr : tickState.machine.shared.osTickCtr = 1 := rfl
    rw [(htcb 5 w hw).1 (fun hdue => ?_), hw]
    rw [hmatch, hctr] at hdue
    exact absurd hdue.2 (by decide)

/-! ### Delays -/

/-- An event is an update of the tick list. -/
def Event.isTick : Event → Bool
  | osTickListUpdate _ => true
  | _ => false

/-- How often the tick list is updated. -/
def ticks (es : List Event) : ℕ := es.countP Event.isTick

lemma ticks_append_singleton (es : List Event) (e : Event) :
    ticks (es ++ [e]) = ticks es + if e.isTick then 1 else 0 := by
  simp [ticks, List.countP_append, List.countP_singleton]

/-- **A task that is delayed stays so until its tick**, over one event. -/
lemma KernelState.Models.delay {s s' : KernelState cfg} {q : Queues} {e : Event} {t : ℕ} {x : OsTcb}
    (h : Models space s q) (hs : CheckedNext space s e s') (hx : s.machine.shared.tcb t = some x)
    (hdelay : x.isDelayed = true)
    (hmore : (if e.isTick then 1 else 0) < s.machine.shared.remain t) :
    ∃ y, s'.machine.shared.tcb t = some y ∧ y.isDelayed = true
      ∧ s'.machine.shared.remain t + (if e.isTick then 1 else 0) = s.machine.shared.remain t := by
  obtain ⟨q', hq', hf⟩ := h.next hs
  rw [h.refines.shared] at hx hmore ⊢
  rw [hq'.refines.shared]
  obtain ⟨y, hy, hchanges⟩ := hf.tcb t x hx
  have hctr := hf.osTickCtr
  have hremain : ∀ v : Shared, ∀ z, v.tcb t = some z →
      v.remain t = (z.tickCtrMatch - v.osTickCtr).toNat := fun v z hz => by
    simp [Shared.remain, Shared.matchOf, hz]
  rw [hremain _ x hx] at hmore ⊢
  cases e with
  | osTickListUpdate ts =>
      have hsame : y = x := by
        obtain rfl : y = x.atTick (q.shared.osTickCtr + 1) (ts t) := hchanges
        rw [OsTcb.atTick, if_neg fun hdue => ?_]
        rw [hdue.2] at hmore
        simp only [Event.isTick, if_true] at hmore
        bv_omega
      subst hsame
      refine ⟨y, hy, hdelay, ?_⟩
      rw [hremain _ y hy, hctr]
      simp only [Event.isTick, if_true] at hmore ⊢
      bv_omega
  | _ =>
      have hkeeps : OsTcb.Keeps x y := hchanges
      obtain ⟨hydelay, hmatch⟩ := hkeeps.delay hdelay
      refine ⟨y, hy, hydelay, ?_⟩
      rw [hremain _ y hy, hctr, hmatch]
      rfl

/-- **A task that is delayed is woken at its tick, and not before**: while fewer ticks go by than
its delay has left it stays delayed, whatever else happens, and the tick that completes the delay
makes it ready, unless it is suspended. -/
theorem kernel_delay (cfg : Config) (space : Space) (mem : Memory space) (es₀ es : List Event)
    (s s' : KernelState cfg) (h : Reaches (CheckedNext space) (KernelState.osInit cfg mem) es₀ s)
    (hs : Reaches (CheckedNext space) s es s') (t : ℕ) (x : OsTcb)
    (hx : s.machine.shared.tcb t = some x) (hdelay : x.isDelayed = true) :
    (ticks es < s.machine.shared.remain t →
      ∃ y, s'.machine.shared.tcb t = some y ∧ y.isDelayed = true)
    ∧ ∀ ts s'', ticks es + 1 = s.machine.shared.remain t →
      CheckedNext space s' (.osTickListUpdate ts) s'' →
      ∃ y, s''.machine.shared.tcb t = some y ∧ (y.taskState = .rdy ∨ y.taskState = .suspended) := by
  have hrun : ticks es < s.machine.shared.remain t →
      ∃ y, s'.machine.shared.tcb t = some y ∧ y.isDelayed = true
        ∧ s'.machine.shared.remain t + ticks es = s.machine.shared.remain t := by
    refine hs.induct (P := fun es s' => ticks es < s.machine.shared.remain t →
      ∃ y, s'.machine.shared.tcb t = some y ∧ y.isDelayed = true
        ∧ s'.machine.shared.remain t + ticks es = s.machine.shared.remain t)
      (fun _ => ⟨x, hx, hdelay, rfl⟩) fun es u e u' hu ih hnext hlt => ?_
    rw [ticks_append_singleton] at hlt ⊢
    obtain ⟨y, hy, hydelay, hleft⟩ := ih (by omega)
    obtain ⟨q, hq⟩ := exists_models (h.append hu)
    obtain ⟨z, hz, hzdelay, hleft'⟩ := hq.delay hnext hy hydelay (by omega)
    exact ⟨z, hz, hzdelay, by omega⟩
  refine ⟨fun hlt => ?_, fun ts s'' hlast hnext => ?_⟩
  · obtain ⟨y, hy, hydelay, -⟩ := hrun hlt
    exact ⟨y, hy, hydelay⟩
  · obtain ⟨y, hy, hydelay, hleft⟩ := hrun (by omega)
    obtain ⟨q, hq⟩ := exists_models (h.append hs)
    obtain ⟨q', hq', hf⟩ := hq.next hnext
    rw [hq.refines.shared] at hy hleft
    rw [hq'.refines.shared]
    obtain ⟨z, hz, hchanges⟩ := hf.tcb t y hy
    obtain rfl : z = y.atTick (q.shared.osTickCtr + 1) (ts t) := hchanges
    have hdue : y.tickCtrMatch = q.shared.osTickCtr + 1 := by
      have hone : (y.tickCtrMatch - q.shared.osTickCtr).toNat = 1 := by
        have hremain : q.shared.remain t = (y.tickCtrMatch - q.shared.osTickCtr).toNat := by
          simp [Shared.remain, Shared.matchOf, hy]
        omega
      bv_omega
    refine ⟨_, hz, ?_⟩
    rw [OsTcb.atTick, if_pos ⟨OsTcb.spoke_of_isDelayed hydelay, hdue⟩]
    exact (OsTcb.freed_expired (hq.sound.consistent.tcb t y hy) _).taskState

/-- An interrupt routine signals the semaphore of the task that is delayed, and there is a tick. -/
def signalRun : List Event :=
  [.osIntEnter, .call (.osTaskSemPost (some 6) osOptPostNone 7), .osIntExit, tickEvent]

def signalState : KernelState .template := signalRun.foldl after waitState

set_option maxRecDepth 2000 in
lemma reaches_signalState : Reaches (CheckedNext .five) waitState signalRun signalState := by
  refine reaches_foldl reaches_waitState ⟨⟨rfl, by decide⟩, id, ⟨rfl, ?_, .routine 1, rfl,
    by decide, rfl⟩, id, ⟨rfl, Nat.one_pos, rfl⟩, id, ⟨rfl, rfl, rfl⟩, id, trivial⟩
  rintro _ ⟨⟩
  exact Option.some_ne_none _

set_option maxRecDepth 2000 in
/-- The task is delayed for two ticks, and woken at the second. -/
theorem kernel_delay_two :
    (∃ y, signalState.machine.shared.tcb 6 = some y ∧ y.isDelayed = true)
    ∧ ∃ y, (signalState.after tickEvent).machine.shared.tcb 6 = some y
      ∧ (y.taskState = .rdy ∨ y.taskState = .suspended) := by
  have hdelayed : (waitState.machine.shared.tcb 6).map OsTcb.isDelayed = some true := rfl
  obtain ⟨x, hx, hdelay⟩ := Option.map_eq_some_iff.mp hdelayed
  obtain ⟨hstays, hwakes⟩ := kernel_delay _ _ _ _ _ _ _ reaches_waitState reaches_signalState 6 x hx
    hdelay
  have hnext := next_after (reaches_waitState.append reaches_signalState) (e := tickEvent)
    ⟨rfl, rfl, rfl⟩ id
  exact ⟨hstays (Nat.lt_succ_self 1), hwakes _ _ rfl hnext⟩

/-! ### Delays that are lost -/

/-- The ready lists have only tasks in the state `OS_TASK_STATE_RDY`. -/
def KernelState.ReadyInOrder (s : KernelState cfg) : Prop :=
  ∀ p < cfg.prioMax, ∃ L : List ℕ, Linked s.machine.rdy.links L
    ∧ s.machine.rdy.osRdyList[p]? = some ⟨L.head?, L.getLast?, L.length⟩
    ∧ ∀ t ∈ L, ∃ x, s.machine.shared.tcb t = some x ∧ x.taskState = .rdy

/-- No task has lost its delay. -/
def NoneLost (v : Shared) : Prop := ∀ t x, v.tcb t = some x → x.isLost = false

namespace KernelState

variable {s : KernelState cfg} {q : Queues}

lemma Models.readyInOrder (h : Models space s q) (hnone : NoneLost q.shared) : s.ReadyInOrder := by
  intro p hp
  have hr := h.refines
  refine ⟨q.rdy p, hr.rdy.family.linked p, hr.rdy.list p hp, fun t ht => ?_⟩
  obtain ⟨x, hx, hready, -⟩ := h.sound.consistent.of_mem_rdy ht
  refine ⟨x, by rw [hr.shared, hx], ?_⟩
  have hlost := hnone t x hx
  unfold OsTcb.isReady at hready
  unfold OsTcb.isLost at hlost
  cases hstate : x.taskState <;> simp_all [TaskState.isDly]

lemma Models.noneLost (h : Models space s q) (horder : s.ReadyInOrder) : NoneLost q.shared := by
  intro t x hx
  by_contra hlost
  have hok := h.sound.consistent.tcb t x hx
  have hready := hok.isReady_of_isLost (eq_true_of_ne_false hlost)
  obtain ⟨L, hlinked, hlist, hL⟩ := horder x.prio hok.prio_lt
  -- the list that is linked there is the one of the model
  have hlist' := h.refines.rdy.list x.prio hok.prio_lt
  have hhead := congrArg OsRdyList.headPtr (Option.some_inj.mp (hlist.symm.trans hlist'))
  obtain rfl := hlinked.cells_unique (h.refines.rdy.family.linked x.prio) hhead
  obtain ⟨y, hy, hstate⟩ := hL t ((h.sound.consistent.mem_rdy hx).mpr ⟨hready, rfl⟩)
  rw [h.refines.shared, hx] at hy
  obtain rfl := Option.some_inj.mp hy
  simp [OsTcb.isLost, hstate, TaskState.isDly] at hlost

end KernelState

/-- **The ready lists have only tasks that are ready** throughout a run in which no
`OSTaskSemPendAbort` aborts a wait for another object if and only if in the whole run neither
`OSTimeDly` nor `OSTimeDlyHMSM` is ever called, by a task that may wait, to wait for a tick that has
gone by. -/
theorem kernel_ready_iff (cfg : Config) (space : Space) (mem : Memory space) (es : List Event) :
    Always (CheckedNext space) (KernelState.osInit cfg mem) KernelState.ReadyInOrder es
    ↔ AtEvery (CheckedNext space) (KernelState.osInit cfg mem)
      (fun s e => s.Enabled space e → ¬ e.LosesDelay cfg s.machine.shared) es := by
  refine always_iff_atEvery (I := fun s => ∃ q, Models space s q ∧ NoneLost q.shared)
    (D := fun _ _ => True) ?start ?good ?step ?needed fun _ _ _ _ _ => trivial
  case start =>
    refine ⟨Queues.osInit cfg mem, ⟨refines_osInit mem, sound_osInit mem⟩, fun t x hx => ?_⟩
    simp [Queues.osInit, Ucos.osInit] at hx
  case good =>
    rintro s ⟨q, hq, hnone⟩
    exact hq.readyInOrder hnone
  case step =>
    rintro s e s' ⟨q, hq, hnone⟩ - hkeeps hnext
    obtain ⟨q', hq', hf⟩ := hq.next hnext
    refine ⟨q', hq', fun t y hy => ?_⟩
    by_contra hlost
    have hnot := hkeeps hnext.1.1
    rw [hq.refines.shared] at hnot
    obtain ⟨x, hx, hxlost⟩ := hf.tidy hnot t y hy (eq_true_of_ne_false hlost)
    simp [hnone t x hx] at hxlost
  case needed =>
    rintro s e ⟨q, hq, -⟩ - hgood henabled hloses
    -- a call aborts nothing
    have hown : ¬ s.AbortsOther e := fun hother => by
      cases e with
      | more => exact hloses
      | _ => exact hother
    obtain ⟨r, s', q', hstep, hq', hf⟩ := hq.step henabled hown
    rw [hq.refines.shared] at hloses
    obtain ⟨t, y, hy, hlost⟩ := hf.lost hloses
    have hnone := hq'.noneLost (hgood s' ⟨⟨henabled, r, hstep⟩, hown⟩)
    simp [hnone t y hy] at hlost

set_option maxRecDepth 2000 in
-- a task that waits for the present tick suspends itself, and goes on
example : (([.call (.osTimeDly 0 osOptTimeMatch), .call (.osTaskSuspend none), .osSched,
    .finish].foldl after startState).machine.shared.osTcbCurPtr,
    (([.call (.osTimeDly 0 osOptTimeMatch), .call (.osTaskSuspend none), .osSched,
      .finish].foldl after startState).machine.shared.tcb 6).map OsTcb.taskState)
    = (some 6, some .dlySuspended) :=
  rfl

end Wgs.Ucos
