import Wgs.Ucos.KernelRun

/-!
The current task in runs of the kernel.

A switch is to a task of the best priority (`kernel_dispatches`), and while the scheduler is locked
there is none (`kernel_locked`).  The runs are those in which `OSTaskSemPendAbort` aborts no wait
for another object.
-/

namespace Wgs.Ucos

open Foundation KernelState

variable {cfg : Config} {space : Space}

/-- The current task is ready, and no task that is ready has a better priority. -/
def Highest (v : Shared) : Prop :=
  ∃ t x, v.osTcbCurPtr = some t ∧ v.tcb t = some x ∧ x.isReady = true
    ∧ ∀ u y, v.tcb u = some y → y.isReady = true → x.prio ≤ y.prio

lemma Dispatched.highest {q : Queues} (hc : Consistent cfg space q) (h : Dispatched q) :
    Highest q.shared := by
  obtain ⟨p, t, L, hleast, hL, hcur, -⟩ := h
  obtain ⟨x, hx, hready, rfl⟩ := hc.of_mem_rdy (hL ▸ List.mem_cons_self)
  refine ⟨t, x, hcur, hx, hready, fun u y hy hyready => hleast.2 ?_⟩
  exact List.ne_nil_of_mem ((hc.mem_rdy hy).mpr ⟨hyready, rfl⟩)

/-- **The kernel runs a task of the best priority**: whenever the current task changes, and then
neither the scheduler is locked nor an interrupt within another one ends; when the kernel is
started; and behind every call of `OSSched` by a task and every end of an outermost interrupt that
the scheduler's lock does not hold off. -/
theorem kernel_dispatches (cfg : Config) (space : Space) (mem : Memory space) (es : List Event)
    (s s' : KernelState cfg) (h : Reaches (CheckedNext space) (KernelState.osInit cfg mem) es s)
    (e : Event) (hs : CheckedNext space s e s') :
    (s'.machine.shared.osTcbCurPtr ≠ s.machine.shared.osTcbCurPtr →
      Highest s'.machine.shared ∧ s.machine.shared.osSchedLockNestingCtr = 0
        ∧ s.machine.shared.osIntNestingCtr ≤ 1)
    ∧ (e = .osStart → Highest s'.machine.shared)
    ∧ (e = .osSched → s.machine.shared.osIntNestingCtr = 0 →
      s.machine.shared.osSchedLockNestingCtr = 0 → Highest s'.machine.shared)
    ∧ (e = .osIntExit → s.machine.shared.osIntNestingCtr = 1 →
      s.machine.shared.osSchedLockNestingCtr = 0 → Highest s'.machine.shared) := by
  obtain ⟨q, hq⟩ := exists_models h
  obtain ⟨q', hq', hf⟩ := hq.next hs
  rw [hq.refines.shared, hq'.refines.shared]
  have hhighest : Dispatched q' → Highest q'.shared := Dispatched.highest hq'.sound.consistent
  refine ⟨fun hne => ?_, fun he => ?_, fun he hnesting hlock => ?_, fun he hone hlock => ?_⟩
  · obtain ⟨hfree, hdispatched⟩ := hf.current.resolve_left hne
    exact ⟨hhighest hdispatched, hfree⟩
  · exact hhighest (hf.osStart he)
  · exact hhighest (hf.osSched he hnesting hlock)
  · exact hhighest (hf.osIntExit he hone hlock)

/-- The tick task signals the semaphore, and the first of those who wait for it is ready. -/
def postEvent : Event := .call (.osSemPost (some 10) osOptPost1 7)

def postState : KernelState .template := waitState.after postEvent

set_option maxRecDepth 2000 in
lemma next_post : CheckedNext .five waitState postEvent postState :=
  next_after reaches_waitState ⟨rfl, mem_sems_five, .task 2, rfl, by decide, rfl⟩ id

set_option maxRecDepth 2000 in
lemma next_postState : CheckedNext .five postState .osSched (postState.after .osSched) :=
  next_after (.step reaches_waitState next_post) ⟨rfl, .task 2, .ret ⟨.none, 0, none⟩, rfl, rfl⟩ id

set_option maxRecDepth 2000 in
theorem kernel_dispatches_post : Highest (postState.after .osSched).machine.shared
    ∧ (postState.after .osSched).machine.shared.osTcbCurPtr = some 4 :=
  ⟨(kernel_dispatches _ _ _ _ _ _ (.step reaches_waitState next_post) _ next_postState).2.2.1 rfl
    rfl rfl, rfl⟩

/-- A step that is taken while the scheduler is locked. -/
def LockedNext (space : Space) (s : KernelState cfg) (e : Event) (s' : KernelState cfg) : Prop :=
  CheckedNext space s e s' ∧ 0 < s.machine.shared.osSchedLockNestingCtr

/-- **A task that locked the scheduler keeps the processor** until the lock is gone: over any run
through locked states, with interrupts and their routines, the current task stays, and it stays
ready. -/
theorem kernel_locked (cfg : Config) (space : Space) (mem : Memory space) (es₀ es : List Event)
    (s s' : KernelState cfg)
    (h : Reaches (CheckedNext space) (KernelState.osInit cfg mem) es₀ s)
    (hs : Reaches (LockedNext space) s es s') :
    s'.machine.shared.osTcbCurPtr = s.machine.shared.osTcbCurPtr
    ∧ (0 < s'.machine.shared.osSchedLockNestingCtr → ∃ t x,
      s.machine.shared.osTcbCurPtr = some t ∧ s'.machine.shared.tcb t = some x
        ∧ x.isReady = true) := by
  have hcur : s'.machine.shared.osTcbCurPtr = s.machine.shared.osTcbCurPtr := by
    refine hs.induct (P := fun _ s' =>
      s'.machine.shared.osTcbCurPtr = s.machine.shared.osTcbCurPtr) rfl
      fun es u e u' hu ih hnext => Eq.trans ?_ ih
    obtain ⟨hnext, hlock⟩ := hnext
    obtain ⟨q, hq⟩ := exists_models (h.append (hu.mono fun _ _ _ hn => hn.1))
    obtain ⟨q', hq', hf⟩ := hq.next hnext
    rw [hq.refines.shared] at hlock ⊢
    rw [hq'.refines.shared]
    exact hf.current.resolve_right fun hfree => hlock.ne' hfree.1.1
  refine ⟨hcur, fun hlock => ?_⟩
  obtain ⟨q, hq⟩ := exists_models (h.append (hs.mono fun _ _ _ hn => hn.1))
  rw [← hcur]
  rw [hq.refines.shared] at hlock ⊢
  have hrunning : q.shared.osRunning = true := by
    by_contra hstopped
    exact hlock.ne' (hq.sound.stopped (eq_false_of_ne_true hstopped)).2.2
  obtain ⟨-, t, x, hcur, hx, -, hor⟩ := hq.sound.running hrunning
  exact ⟨t, x, hcur, hx, hor.resolve_right fun hpart => hlock.ne' hpart.1⟩

/-- One more step while the scheduler is locked. -/
lemma reaches_locked_snoc {mem : Memory space} {es₀ es : List Event} {s u : KernelState cfg}
    {e : Event} (h : Reaches (CheckedNext space) (KernelState.osInit cfg mem) es₀ s)
    (hs : Reaches (LockedNext space) s es u) (he : u.Enabled space e) (hown : ¬ u.AbortsOther e)
    (hlock : 0 < u.machine.shared.osSchedLockNestingCtr) :
    Reaches (LockedNext space) s (es ++ [e]) (u.after e) :=
  .step hs ⟨next_after (h.append (hs.mono fun _ _ _ hn => hn.1)) he hown, hlock⟩

/-- The tick task has locked the scheduler. -/
def lockState : KernelState .template := waitState.after (.call .osSchedLock)

set_option maxRecDepth 2000 in
lemma reaches_lockState :
    Reaches (CheckedNext .five) (KernelState.osInit .template (.zeroed .five))
      (waitRun ++ [.call .osSchedLock]) lockState :=
  .step reaches_waitState (next_after reaches_waitState ⟨rfl, trivial, .task 2, rfl, by decide, rfl⟩
    id)

/-- The tick task aborts the wait of one task, and an interrupt routine signals the semaphore for
which another one waits; both have a better priority. -/
def lockedRun : List Event :=
  [.call (.osSemPendAbort (some 10) (osOptPendAbort1 ||| osOptPostNoSched) 7), .osIntEnter,
    .call (.osSemPost (some 10) osOptPost1 7), .osSched, .finish, .osIntExit]

def lockedState : KernelState .template := lockedRun.foldl after lockState

set_option maxRecDepth 4000 in
lemma reaches_lockedState : Reaches (LockedNext .five) lockState lockedRun lockedState := by
  have habort := reaches_locked_snoc (e := lockedRun[0]) reaches_lockState .start
    ⟨rfl, mem_sems_five, .task 2, rfl, by decide, rfl⟩ id Nat.one_pos
  have henter := reaches_locked_snoc (e := .osIntEnter) reaches_lockState habort
    ⟨rfl, by decide⟩ id Nat.one_pos
  have hpost := reaches_locked_snoc (e := lockedRun[2]) reaches_lockState henter
    ⟨rfl, mem_sems_five, .routine 1, rfl, by decide, rfl⟩ id Nat.one_pos
  have hsched := reaches_locked_snoc (e := .osSched) reaches_lockState hpost
    ⟨rfl, .routine 1, .ret ⟨.none, 0, none⟩, rfl, rfl⟩ id Nat.one_pos
  have hfinish := reaches_locked_snoc (e := .finish) reaches_lockState hsched
    ⟨rfl, .routine 1, .ret ⟨.none, 0, none⟩, rfl, rfl⟩ id Nat.one_pos
  exact reaches_locked_snoc (e := .osIntExit) reaches_lockState hfinish
    ⟨rfl, Nat.one_pos, rfl⟩ id Nat.one_pos

set_option maxRecDepth 4000 in
/-- The tick task runs on, though a task of a better priority is ready. -/
theorem kernel_locked_interrupt : lockedState.machine.shared.osTcbCurPtr = some 2
    ∧ (∃ x, lockedState.machine.shared.tcb 2 = some x ∧ x.isReady = true)
    ∧ (lockedState.machine.shared.tcb 4).map (fun y => (y.prio, y.isReady)) = some (3, true) := by
  obtain ⟨hcur, hready⟩ := kernel_locked _ _ _ _ _ _ _ reaches_lockState reaches_lockedState
  obtain ⟨t, x, ht, hx, hxready⟩ := hready Nat.one_pos
  obtain rfl : t = 2 := Option.some_inj.mp (ht.symm.trans rfl)
  exact ⟨hcur, ⟨x, hx, hxready⟩, rfl⟩

end Wgs.Ucos
