import Wgs.Foundation.Runs
import Wgs.Ucos.Scheduler

/-!
The kernel with its tasks and interrupts.

An event is a service that a task or an interrupt routine calls, up to the first place where an
interrupt can come in and something may have changed, a further part of it, a call of `OSSched`, or
the beginning or the end of an interrupt.  The services are those of `Call`: nobody calls another
one that the sources have, such as `OSTimeSet`, `OSTimeDlyResume`, `OSSemDel` or `OSTaskChangePrio`.
What an event does is a program of the kernel, so it can be executed with the lists of the sources
and with plain lists.  What tasks and routines have to see to before a call is `Event.Enabled`.

`OSTaskSemPendAbort` lets interrupts in between its check and the abort.  What holds between the
events (`Sound`) is kept by every event but an abort that meets a wait for another object
(`Event.AbortsOther`).
-/

namespace Wgs.Ucos

open Foundation Ucos.Kernel

/-! ### Calls -/

/-- The services, with their arguments. -/
inductive Call where
  | osSchedLock
  | osSchedUnlock
  | osSchedRoundRobinCfg (en : Bool) (dfltTimeQuanta : Tick)
  | osSchedRoundRobinYield
  | osTimeDly (dly : Tick) (opt : BitVec 16)
  | osTimeDlyHmsm (hours minutes seconds : BitVec 16) (milli : BitVec 32) (opt : BitVec 16)
  | osSemCreate (pSem : Ptr) (cnt : SemCtr)
  | osSemPend (pSem : Ptr) (pendData : ℕ) (timeout : Tick) (opt : BitVec 16)
  | osSemPendAbort (pSem : Ptr) (opt : BitVec 16) (ts : ℕ)
  | osSemPost (pSem : Ptr) (opt : BitVec 16) (ts : ℕ)
  | osSemSet (pSem : Ptr) (cnt : SemCtr)
  | osTaskCreate (pTcb pTask : Ptr) (prio : ℕ) (pStkBase : Ptr) (stkLimit stkSize : ℕ)
      (timeQuanta : Tick)
  | osTaskSemPend (timeout : Tick) (opt : BitVec 16)
  | osTaskSemPendAbort (pTcb : Ptr) (opt : BitVec 16) (ts : ℕ)
  | osTaskSemPost (pTcb : Ptr) (opt : BitVec 16) (ts : ℕ)
  | osTaskSemSet (pTcb : Ptr) (cnt : SemCtr)
  | osTaskSuspend (pTcb : Ptr)
  | osTaskResume (pTcb : Ptr)
  | osTaskTimeQuantaSet (pTcb : Ptr) (timeQuanta : Tick)
  | osTimeTick (tsTick tsTmr : ℕ)

namespace Call

/-- What a service does up to the first place where it is cut. -/
def run (cfg : Config) : Call → Kernel Outcome
  | osSchedLock => Ucos.osSchedLock
  | osSchedUnlock => Ucos.osSchedUnlock
  | osSchedRoundRobinCfg en dfltTimeQuanta => Ucos.osSchedRoundRobinCfg cfg en dfltTimeQuanta
  | osSchedRoundRobinYield => Ucos.osSchedRoundRobinYield
  | osTimeDly dly opt => Ucos.osTimeDly cfg dly opt
  | osTimeDlyHmsm hours minutes seconds milli opt =>
      Ucos.osTimeDlyHmsm cfg hours minutes seconds milli opt
  | osSemCreate pSem cnt => Ucos.osSemCreate pSem cnt
  | osSemPend pSem pendData timeout opt => Ucos.osSemPend cfg pSem pendData timeout opt
  | osSemPendAbort pSem opt ts => Ucos.osSemPendAbort pSem opt ts
  | osSemPost pSem opt ts => Ucos.osSemPost pSem opt ts
  | osSemSet pSem cnt => Ucos.osSemSet pSem cnt
  | osTaskCreate pTcb pTask prio pStkBase stkLimit stkSize timeQuanta =>
      Ucos.osTaskCreate cfg pTcb pTask prio pStkBase stkLimit stkSize timeQuanta
  | osTaskSemPend timeout opt => Ucos.osTaskSemPend cfg timeout opt
  | osTaskSemPendAbort pTcb opt ts => Ucos.osTaskSemPendAbort pTcb opt ts
  | osTaskSemPost pTcb opt ts => Ucos.osTaskSemPost pTcb opt ts
  | osTaskSemSet pTcb cnt => Ucos.osTaskSemSet pTcb cnt
  | osTaskSuspend pTcb => Ucos.osTaskSuspend cfg pTcb
  | osTaskResume pTcb => Ucos.osTaskResume pTcb
  | osTaskTimeQuantaSet pTcb timeQuanta => Ucos.osTaskTimeQuantaSet pTcb timeQuanta
  | osTimeTick tsTick tsTmr => Ucos.osTimeTick cfg tsTick tsTmr

/-- What a caller sees to: a pointer that is not null is that of an object or a task that is there,
what is created is new, the `OS_PEND_DATA` of `OSSemPend` is a variable of the caller, and
`OSTimeTick` is called by an interrupt routine. -/
def Valid (cfg : Config) (space : Space) (v : Shared) : Call → Prop
  | osSemCreate pSem _ => ∀ o, pSem = some o →
      o ∈ space.sems ∧ ∀ k, v.sem o = some k → k.type ≠ .sem
  | osSemPend pSem pendData _ _ => (∀ o, pSem = some o → o ∈ space.sems) ∧ pendData ∈ space.frames
      ∧ ∀ t x, v.tcb t = some x → x.pendDataTblPtr ≠ some pendData
  | osSemPendAbort pSem _ _ | osSemPost pSem _ _ | osSemSet pSem _ =>
      ∀ o, pSem = some o → o ∈ space.sems
  | osTaskCreate pTcb _ _ _ _ _ _ => ∀ t, pTcb = some t → t ∈ space.tcbs ∧ v.tcb t = none
  | osTaskSemPendAbort pTcb _ _ | osTaskSemPost pTcb _ _ | osTaskSemSet pTcb _
  | osTaskSuspend pTcb | osTaskResume pTcb | osTaskTimeQuantaSet pTcb _ =>
      ∀ t, pTcb = some t → v.tcb t ≠ none
  | osTimeTick _ _ => 0 < v.osIntNestingCtr ∧ v.tcb cfg.osTickTaskTcb ≠ none
      ∧ v.tcb cfg.osTmrTaskTcb ≠ none
  | _ => True

/-- The calls that are made before `OSStart`. -/
def Initial : Call → Prop
  | osSchedRoundRobinCfg _ _ | osSemCreate _ _ | osTaskCreate _ _ _ _ _ _ _ => True
  | _ => False

/-- The calls that lose the delay of the current task. -/
def LosesDelay (cfg : Config) (v : Shared) : Call → Prop
  | osTimeDly dly opt => Ucos.LosesDelay v dly opt
  | osTimeDlyHmsm hours minutes seconds milli opt =>
      LosesHmsm cfg v hours minutes seconds milli opt
  | _ => False

variable {cfg : Config} {space : Space} {s : Queues} {t : ℕ} {x : OsTcb}

/-- Every service ends, where it may be called. -/
lemma ends_served (c : Call) (hdly : ∀ dly opt, c ≠ .osTimeDly dly opt)
    (hhmsm : ∀ hours minutes seconds milli opt,
      c ≠ .osTimeDlyHmsm hours minutes seconds milli opt)
    (h : Callable cfg space s t x) (hc : c.Valid cfg space s.shared) :
    (c.run cfg).Ends (Queues.exec cfg space) s (Served cfg space s) := by
  cases c with
  | osSchedLock => exact ends_osSchedLock h.consistent
  | osSchedUnlock => exact ends_osSchedUnlock h.consistent
  | osSchedRoundRobinCfg en dflt =>
      exact (ends_osSchedRoundRobinCfg h.consistent en dflt).mono fun _ _ hs => hs.mild.served
  | osSchedRoundRobinYield => exact ends_osSchedRoundRobinYield h.consistent
  | osTimeDly dly opt => exact absurd rfl (hdly dly opt)
  | osTimeDlyHmsm hours minutes seconds milli opt => exact absurd rfl (hhmsm _ _ _ _ _)
  | osSemCreate pSem cnt =>
      exact (ends_osSemCreate h.consistent pSem cnt hc).mono fun _ _ hs => hs.mild.served
  | osSemPend pSem d timeout opt => exact ends_osSemPend h pSem hc.1 hc.2.1 hc.2.2 timeout opt
  | osSemPendAbort pSem opt ts => exact ends_osSemPendAbort h.consistent pSem hc opt
  | osSemPost pSem opt ts => exact ends_osSemPost h.consistent pSem hc opt
  | osSemSet pSem cnt => exact ends_osSemSet h.consistent pSem hc cnt
  | osTaskCreate pTcb pTask prio pStkBase stkLimit stkSize timeQuanta =>
      exact (ends_osTaskCreate h.consistent pTcb pTask pStkBase hc stkLimit stkSize
        timeQuanta).mono fun _ _ hs => hs.mild.served
  | osTaskSemPend timeout opt => exact ends_osTaskSemPend h timeout opt
  | osTaskSemPendAbort pTcb opt ts => exact ends_osTaskSemPendAbort h.consistent pTcb hc opt
  | osTaskSemPost pTcb opt ts =>
      exact (ends_osTaskSemPost h pTcb hc opt _).mono fun _ _ hs => hs.served
  | osTaskSemSet pTcb cnt => exact ends_osTaskSemSet h pTcb hc cnt
  | osTaskSuspend pTcb => exact ends_osTaskSuspend h pTcb hc
  | osTaskResume pTcb => exact ends_osTaskResume h.consistent pTcb hc
  | osTaskTimeQuantaSet pTcb timeQuanta => exact ends_osTaskTimeQuantaSet h pTcb hc timeQuanta
  | osTimeTick tsTick tsTmr => exact ends_osTimeTick h.consistent hc.2.1 hc.2.2 tsTick tsTmr

/-- **Every service ends**, where it may be called. -/
lemma ends (c : Call) (h : Callable cfg space s t x) (hc : c.Valid cfg space s.shared) :
    (c.run cfg).Ends (Queues.exec cfg space) s
      (ServedUnless (c.LosesDelay cfg s.shared) cfg space s t) := by
  cases c with
  | osTimeDly dly opt => exact ends_osTimeDly h dly opt
  | osTimeDlyHmsm hours minutes seconds milli opt =>
      exact ends_osTimeDlyHmsm h hours minutes seconds milli opt
  | _ => exact (ends_served _ (by simp) (by simp) h hc).mono fun _ _ hs => hs.unless not_false t

/-- **A call before `OSStart` ends**, without a call of `OSSched` while the kernel does not run. -/
lemma ends_initial (c : Call) (h : Consistent cfg space s) (hinit : c.Initial)
    (hc : c.Valid cfg space s.shared) :
    (c.run cfg).Ends (Queues.exec cfg space) s (Calm cfg space s) := by
  cases c with
  | osSchedRoundRobinCfg en dflt => exact ends_osSchedRoundRobinCfg h en dflt
  | osSemCreate pSem cnt => exact ends_osSemCreate h pSem cnt hc
  | osTaskCreate pTcb pTask prio pStkBase stkLimit stkSize timeQuanta =>
      exact ends_osTaskCreate h pTcb pTask pStkBase hc stkLimit stkSize timeQuanta
  | _ => exact hinit.elim

end Call

/-! ### Events -/

/-- Where the application is: in the code of a task, or in that of an interrupt routine, which is
told by its nesting. -/
inductive Place where
  | task (t : ℕ)
  | routine (n : ℕ)
  deriving DecidableEq

/-- Who runs: an interrupt routine if an interrupt is served, and the current task otherwise. -/
def Shared.place (v : Shared) : Option Place :=
  if 0 < v.osIntNestingCtr then some (.routine v.osIntNestingCtr) else v.osTcbCurPtr.map .task

/-- Who runs, where there is someone. -/
def here : Kernel Place := do
  let s ← get
  require s.place

/-- How far a task or a routine is: in its own code, before a part of a service, before a call of
`OSSched` in a service, or behind it. -/
inductive Phase where
  | app
  | more (p : Part)
  | sched (k : Cont)
  | finish (k : Cont)

namespace Outcome

/-- What the caller gets, if the service returns. -/
def reply : Outcome → Option Ret
  | done r => some r
  | _ => none

/-- How far the caller is. -/
def phase : Outcome → Phase
  | done _ => .app
  | more p => .more p
  | sched k => .sched k

end Outcome

/-- What can happen. -/
inductive Event where
  /-- A call before the kernel runs. -/
  | init (c : Call)
  | osStart
  /-- Who runs calls a service. -/
  | call (c : Call)
  /-- Who runs goes on with the next part of a service. -/
  | more
  /-- Who runs calls `OSSched` in a service. -/
  | osSched
  /-- Who runs returns from a service that called `OSSched`. -/
  | finish
  /-- The tick task updates the tick list; `ts` is what `OS_TS_GET` returns for a task. -/
  | osTickListUpdate (ts : ℕ → ℕ)
  | osIntEnter
  | osIntExit

/-- A service before the kernel runs, when nothing comes in between: it does not call `OSSched`. -/
def Call.initial (cfg : Config) (c : Call) : Kernel Ret := do
  let out ← c.run cfg
  match out with
  | .more p => do
      let out ← p.run cfg
      require out.reply
  | _ => require out.reply

namespace Event

/-- What an event does: the reply, if a service returns, and how far everyone is afterwards. -/
def run (cfg : Config) (phase : Place → Phase) : Event → Kernel (Option Ret × (Place → Phase))
  | init c => do
      let r ← c.initial cfg
      return (some r, phase)
  | osStart => do
      let err ← Ucos.osStart
      return (some ⟨err, 0, none⟩, phase)
  | call c => do
      let a ← here
      let out ← c.run cfg
      return (out.reply, Function.update phase a out.phase)
  | more => do
      let a ← here
      match phase a with
      | .more p => do
          let out ← p.run cfg
          return (out.reply, Function.update phase a out.phase)
      | _ => require none
  | osSched => do
      let a ← here
      match phase a with
      | .sched k => do
          Ucos.osSched cfg
          return (none, Function.update phase a (.finish k))
      | _ => require none
  | finish => do
      let a ← here
      match phase a with
      | .finish k => do
          let r ← k.run
          return (some r, Function.update phase a .app)
      | _ => require none
  | osTickListUpdate ts => do
      Ucos.osTickListUpdate cfg ts
      return (none, phase)
  | osIntEnter => do
      Ucos.osIntEnter
      return (none, phase)
  | osIntExit => do
      Ucos.osIntExit cfg
      return (none, phase)

/-- When an event can happen.  The idle task calls no services, the tick task is the only one that
updates the tick list, and interrupts are nested at most 250 deep: `OSIntNestingCtr` counts no
further. -/
def Enabled (cfg : Config) (space : Space) (v : Shared) (phase : Place → Phase) : Event → Prop
  | init c => v.osRunning = false ∧ c.Initial ∧ c.Valid cfg space v
  | osStart => v.osRunning = false ∧ v.tcb cfg.osIdleTaskTcb ≠ none
  | call c => v.osRunning = true ∧ c.Valid cfg space v
      ∧ ∃ a, v.place = some a ∧ a ≠ .task cfg.osIdleTaskTcb ∧ phase a = .app
  | more => v.osRunning = true ∧ ∃ a p, v.place = some a ∧ phase a = .more p ∧ p.Valid v.tcb
  | osSched => v.osRunning = true ∧ ∃ a k, v.place = some a ∧ phase a = .sched k
  | finish => v.osRunning = true ∧ ∃ a k, v.place = some a ∧ phase a = .finish k
  | osTickListUpdate _ => v.osRunning = true ∧ v.place = some (.task cfg.osTickTaskTcb)
      ∧ phase (.task cfg.osTickTaskTcb) = .app
  | osIntEnter => v.osRunning = true ∧ v.osIntNestingCtr < 250
  | osIntExit => v.osRunning = true ∧ 0 < v.osIntNestingCtr
      ∧ phase (.routine v.osIntNestingCtr) = .app

/-- The events that lose a delay. -/
def LosesDelay (cfg : Config) (v : Shared) : Event → Prop
  | call c => c.LosesDelay cfg v
  | _ => False

/-- The events that abort a wait for another object than they were told. -/
def AbortsOther (v : Shared) (phase : Place → Phase) : Event → Prop
  | more => ∃ a p, v.place = some a ∧ phase a = .more p ∧ p.AbortsOther v.tcb
  | _ => False

end Event

/-! ### The invariant -/

/-- What someone still does refers to tasks and lists that are there. -/
def Phase.Ok (cfg : Config) (space : Space) (tcb : Mem OsTcb) : Phase → Prop
  | .app => True
  | .more p => p.Ok cfg space tcb
  | .sched k | .finish k => k.Ok space

/-- What holds between the events. -/
structure Sound (cfg : Config) (space : Space) (s : Queues) (phase : Place → Phase) : Prop where
  consistent : Consistent cfg space s
  settled : Settled s
  places : ∀ a, (phase a).Ok cfg space s.shared.tcb
  idle : ∀ x, s.shared.tcb cfg.osIdleTaskTcb = some x → x.isReady = true
  running : s.shared.osRunning = true → s.shared.tcb cfg.osIdleTaskTcb ≠ none
    ∧ ∃ t x, s.shared.osTcbCurPtr = some t ∧ s.shared.tcb t = some x
      ∧ s.shared.osPrioCur = x.prio
      ∧ (x.isReady = true ∨ s.shared.osSchedLockNestingCtr = 0 ∧ ∃ k, phase (.task t) = .sched k)
  stopped : s.shared.osRunning = false → s.shared.osTcbCurPtr = none
    ∧ s.shared.osIntNestingCtr = 0 ∧ s.shared.osSchedLockNestingCtr = 0

/-- The current task is the first of the best ready list. -/
def Dispatched (s : Queues) : Prop :=
  ∃ p t L, IsLeast {p | s.rdy p ≠ []} p ∧ s.rdy p = t :: L ∧ s.shared.osTcbCurPtr = some t
    ∧ s.shared.osPrioCur = p

/-- Nothing holds a switch off: the scheduler is not locked, and no interrupt is served, or the last
one that is. -/
def Free (s : Queues) : Prop :=
  s.shared.osSchedLockNestingCtr = 0 ∧ s.shared.osIntNestingCtr ≤ 1

/-- What an event makes of a task. -/
def Event.Changes (c : Tick) (t : ℕ) (x y : OsTcb) : Event → Prop
  | osTickListUpdate ts => y = x.atTick c (ts t)
  | _ => OsTcb.Keeps x y

/-- What an event leaves of the tasks, the clock and the current task. -/
structure Follows (cfg : Config) (e : Event) (s s' : Queues) : Prop where
  osTickCtr : s'.shared.osTickCtr
    = match e with
      | .osTickListUpdate _ => s.shared.osTickCtr + 1
      | _ => s.shared.osTickCtr
  tcb : ∀ t x, s.shared.tcb t = some x →
    ∃ y, s'.shared.tcb t = some y ∧ e.Changes (s.shared.osTickCtr + 1) t x y
  current : s'.shared.osTcbCurPtr = s.shared.osTcbCurPtr ∨ Free s ∧ Dispatched s'
  osStart : e = .osStart → Dispatched s'
  osSched : e = .osSched → s.shared.osIntNestingCtr = 0 → s.shared.osSchedLockNestingCtr = 0 →
    Dispatched s'
  osIntExit : e = .osIntExit → s.shared.osIntNestingCtr = 1 → s.shared.osSchedLockNestingCtr = 0 →
    Dispatched s'
  tidy : ¬ e.LosesDelay cfg s.shared → Tidy s s'
  lost : e.LosesDelay cfg s.shared → ∃ t y, s'.shared.tcb t = some y ∧ y.isLost = true

/-- A task runs if it is the current one, and no interrupt is served. -/
lemma Shared.place_eq_task {v : Shared} {t : ℕ} :
    v.place = some (.task t) ↔ v.osIntNestingCtr = 0 ∧ v.osTcbCurPtr = some t := by
  unfold place
  split_ifs with hpos
  · simp [hpos.ne']
  · simp [Nat.eq_zero_of_not_pos hpos]

/-- Who runs is found. -/
lemma run_here_of {cfg : Config} {space : Space} {s : Queues} {a : Place}
    (ha : s.shared.place = some a) : here.run (Queues.exec cfg space) s = some (a, s) := by
  simp [here, require, ha]

/-- What someone still does is good as long as no task goes. -/
lemma Phase.Ok.mono {cfg : Config} {space : Space} {q : Phase} {tcb tcb' : Mem OsTcb}
    (h : q.Ok cfg space tcb) (hmono : ∀ u, tcb u ≠ none → tcb' u ≠ none) :
    q.Ok cfg space tcb' := by
  cases q with
  | more p => exact Part.Ok.mono h hmono
  | _ => exact h

/-- A service that is cut leaves its caller something good to do. -/
lemma Outcome.Ok.phase {cfg : Config} {space : Space} {out : Outcome} {tcb : Mem OsTcb}
    (h : out.Ok cfg space tcb) : out.phase.Ok cfg space tcb := by
  cases out with
  | done r => trivial
  | _ => exact h

/-- The end of a service changes nothing. -/
lemma Cont.ends_run {cfg : Config} {space : Space} {s : Queues} {t : ℕ} {x : OsTcb} {k : Cont}
    (h : Consistent cfg space s) (hcur : s.shared.osTcbCurPtr = some t)
    (hx : s.shared.tcb t = some x) (hk : k.Ok space) :
    k.run.Ends (Queues.exec cfg space) s fun _ s' => s' = s := by
  cases k with
  | ret r => exact .ret rfl
  | semPend o =>
      obtain ⟨j, hj⟩ := Option.ne_none_iff_exists'.mp (h.sem_alloc o hk)
      refine .after (run_cur_of hcur) (.after (run_tcb_of hx) (.after (run_sem_of hj) ?_))
      cases x.pendStatus <;> exact .ret rfl
  | taskSemPend =>
      refine .after (run_cur_of hcur) (.after (run_tcb_of hx) ?_)
      cases x.pendStatus <;> exact .ret rfl

section Steps

variable {cfg : Config} {space : Space} {s s' : Queues} {phase : Place → Phase} {a : Place}
  {V : Set ℕ}

/-- What a service leaves, as what an event leaves. -/
lemma Leaves.follows {e : Event} (h : Leaves cfg space V s s')
    (he : (∃ c, e = .init c ∨ e = .call c) ∨ e = .more)
    (htidy : ¬ e.LosesDelay cfg s.shared → Tidy s s')
    (hlost : e.LosesDelay cfg s.shared → ∃ t y, s'.shared.tcb t = some y ∧ y.isLost = true) :
    Follows cfg e s s' := by
  have htcb : ∀ t x, s.shared.tcb t = some x →
      ∃ y, s'.shared.tcb t = some y ∧ OsTcb.Keeps x y := fun t x hx => by
    obtain ⟨y, hy, hkeeps, -⟩ := h.tcb t x hx
    exact ⟨y, hy, hkeeps⟩
  obtain ⟨c, rfl | rfl⟩ | rfl := he
  all_goals
    exact ⟨h.osTickCtr, htcb, .inl h.osTcbCurPtr, by simp, by simp, by simp, htidy, hlost⟩

/-- The tasks and the clock stay as they are. -/
lemma Follows.of_eq {e : Event} (he : ∀ ts, e ≠ .osTickListUpdate ts) (hcall : ∀ c, e ≠ .call c)
    (hctr : s'.shared.osTickCtr = s.shared.osTickCtr) (htcb : s'.shared.tcb = s.shared.tcb)
    (hcur : s'.shared.osTcbCurPtr = s.shared.osTcbCurPtr ∨ Free s ∧ Dispatched s')
    (hstart : e = .osStart → Dispatched s')
    (hsched : e = .osSched → s.shared.osIntNestingCtr = 0 →
      s.shared.osSchedLockNestingCtr = 0 → Dispatched s')
    (hexit : e = .osIntExit → s.shared.osIntNestingCtr = 1 →
      s.shared.osSchedLockNestingCtr = 0 → Dispatched s') : Follows cfg e s s' where
  osTickCtr := by
    cases e with
    | osTickListUpdate ts => exact absurd rfl (he ts)
    | _ => exact hctr
  tcb t x hx := by
    refine ⟨x, htcb ▸ hx, ?_⟩
    cases e with
    | osTickListUpdate ts => exact absurd rfl (he ts)
    | _ => exact .refl x
  current := hcur
  osStart := hstart
  osSched := hsched
  osIntExit := hexit
  tidy _ t y hy hlost := ⟨y, htcb ▸ hy, hlost⟩
  lost hloses := by
    cases e with
    | call c => exact absurd rfl (hcall c)
    | _ => exact hloses.elim

namespace Sound

/-- A service can be called by whoever runs in its own code. -/
lemma callable (h : Sound cfg space s phase) (hrunning : s.shared.osRunning = true)
    (ha : s.shared.place = some a) (hidle : a ≠ .task cfg.osIdleTaskTcb) (happ : phase a = .app) :
    ∃ t x, Callable cfg space s t x := by
  obtain ⟨-, t, x, hcur, hx, hprio, hor⟩ := h.running hrunning
  refine ⟨t, x, h.consistent, hcur, hx, hprio, fun hnesting => ?_⟩
  obtain rfl := Option.some_inj.mp (ha.symm.trans (Shared.place_eq_task.mpr ⟨hnesting, hcur⟩))
  refine ⟨hor.resolve_right ?_, fun heq => hidle (congrArg Place.task heq)⟩
  rintro ⟨-, k, hk⟩
  simp [happ] at hk

/-- The idle task is ready whatever is done to others. -/
lemma idle_leaves (h : Sound cfg space s phase) (hs : Leaves cfg space V s s')
    (hidle : cfg.osIdleTaskTcb ∉ V) :
    ∀ x, s'.shared.tcb cfg.osIdleTaskTcb = some x → x.isReady = true := by
  intro x hx
  cases hz : s.shared.tcb cfg.osIdleTaskTcb with
  | none => exact hs.created _ x hz hx hidle
  | some z =>
      obtain ⟨y, hy, -, hready⟩ := hs.tcb _ z hz
      obtain rfl := Option.some_inj.mp (hy.symm.trans hx)
      exact hready hidle (h.idle z hz)

/-- What everyone still does stays good while one goes on, as long as no task goes. -/
lemma places_update (h : Sound cfg space s phase)
    (htcb : ∀ u, s.shared.tcb u ≠ none → s'.shared.tcb u ≠ none) {q : Phase}
    (hq : q.Ok cfg space s'.shared.tcb) (b : Place) :
    (Function.update phase a q b).Ok cfg space s'.shared.tcb := by
  rcases eq_or_ne b a with rfl | hne
  · rwa [Function.update_self]
  · rw [Function.update_of_ne hne]
    exact (h.places b).mono htcb

/-- There is always a task that is ready. -/
lemma exists_rdy (h : Consistent cfg space s)
    (hidle : ∀ x, s.shared.tcb cfg.osIdleTaskTcb = some x → x.isReady = true)
    (hne : s.shared.tcb cfg.osIdleTaskTcb ≠ none) : ∃ p, s.rdy p ≠ [] := by
  obtain ⟨x, hx⟩ := Option.ne_none_iff_exists'.mp hne
  exact ⟨x.prio, List.ne_nil_of_mem ((h.mem_rdy hx).mpr ⟨hidle x hx, rfl⟩)⟩

/-- What a switch leaves is sound. -/
lemma of_dispatches (h : Consistent cfg space s) (hsettled : Settled s)
    (hplaces : ∀ a, (phase a).Ok cfg space s.shared.tcb)
    (hidle : ∀ x, s.shared.tcb cfg.osIdleTaskTcb = some x → x.isReady = true)
    (hne : s.shared.tcb cfg.osIdleTaskTcb ≠ none) (hrunning : s.shared.osRunning = true)
    (hs : Dispatches s s') : Sound cfg space s' phase ∧ Dispatched s' := by
  obtain ⟨p, t, L, hleast, hL, rfl⟩ := hs
  obtain ⟨x, hx, hready, hprio⟩ := h.of_mem_rdy (hL ▸ List.mem_cons_self)
  refine ⟨⟨h.setVars _ rfl, hsettled, hplaces, hidle, fun _ => ⟨hne, t, x, rfl, hx, hprio.symm,
    .inl hready⟩, fun hstopped => ?_⟩, p, t, L, hleast, hL, rfl, rfl⟩
  simp [hrunning] at hstopped

/-- **What whoever runs leaves is sound**: the current task is ready still, or about to call
`OSSched`. -/
lemma leave (h : Sound cfg space s phase) (hrunning : s.shared.osRunning = true)
    (ha : s.shared.place = some a) (hsched : ∀ t k, a = .task t → phase a ≠ .sched k)
    (hl : Leaves cfg space V s s') (hidle : cfg.osIdleTaskTcb ∉ V) {q : Phase}
    (hq : q.Ok cfg space s'.shared.tcb)
    (hV : ∀ t ∈ V, s.shared.osTcbCurPtr = some t → s.shared.osIntNestingCtr = 0
      ∧ s'.shared.osSchedLockNestingCtr = 0 ∧ ∃ k, q = .sched k) :
    Sound cfg space s' (Function.update phase a q) := by
  obtain ⟨hne, t, x, hcur, hx, hprio, hor⟩ := h.running hrunning
  obtain ⟨y, hy, hkeeps, hready⟩ := hl.tcb t x hx
  refine ⟨hl.consistent, hl.settled h.settled, h.places_update (fun _ => hl.tcb_ne_none) hq,
    h.idle_leaves hl hidle, fun _ => ⟨hl.tcb_ne_none hne, t, y, hl.osTcbCurPtr.trans hcur, hy, ?_,
      ?_⟩, fun hstopped => ?_⟩
  · rw [hl.osPrioCur, hprio, hkeeps.prio]
  · by_cases hmem : t ∈ V
    · obtain ⟨hnesting, hlock, k, rfl⟩ := hV t hmem hcur
      obtain rfl := Option.some_inj.mp (ha.symm.trans (Shared.place_eq_task.mpr ⟨hnesting, hcur⟩))
      exact .inr ⟨hlock, k, Function.update_self _ _ _⟩
    · refine hor.imp (hready hmem) fun hpart => ?_
      obtain ⟨hlock, k, hk⟩ := hpart
      have haway : Place.task t ≠ a := fun heq => hsched t k heq.symm (heq ▸ hk)
      have hpos : 0 < s.shared.osIntNestingCtr := Nat.pos_of_ne_zero fun hzero =>
        haway (Option.some_inj.mp ((Shared.place_eq_task.mpr ⟨hzero, hcur⟩).symm.trans ha))
      exact ⟨(hl.lock hpos).trans hlock, k, by rw [Function.update_of_ne haway, hk]⟩
  · simp [hl.osRunning, hrunning] at hstopped

/-- **A call before `OSStart`.** -/
lemma init (h : Sound cfg space s phase) (c : Call)
    (he : (Event.init c).Enabled cfg space s.shared phase) :
    ((Event.init c).run cfg phase).Ends (Queues.exec cfg space) s fun r s' =>
      Sound cfg space s' r.2 ∧ Follows cfg (.init c) s s' := by
  obtain ⟨hrunning, hinit, hc⟩ := he
  obtain ⟨hcur, hnesting, hlock⟩ := h.stopped hrunning
  have hdone : ∀ s', Leads cfg space ∅ s s' →
      s'.shared.osSchedLockNestingCtr = s.shared.osSchedLockNestingCtr →
      Sound cfg space s' phase ∧ Follows cfg (.init c) s s' := by
    intro s' hl hlock'
    refine ⟨⟨hl.consistent, hl.settled h.settled,
      fun a => (h.places a).mono fun _ => hl.tcb_ne_none,
      h.idle_leaves hl.toLeaves (Set.notMem_empty _), fun hrunning' => ?_, fun _ => ?_⟩,
      hl.follows (.inl ⟨c, .inl rfl⟩) (fun _ => hl.tidy) False.elim⟩
    · simp [hl.osRunning, hrunning] at hrunning'
    · exact ⟨hl.osTcbCurPtr.trans hcur, hl.osIntNestingCtr.trans hnesting, hlock'.trans hlock⟩
  have hinitial : (c.initial cfg).Ends (Queues.exec cfg space) s fun _ s' =>
      Sound cfg space s' phase ∧ Follows cfg (.init c) s s' := by
    refine (c.ends_initial h.consistent hinit hc).bind fun out s' hs => ?_
    have hl := hs.leads
    cases out with
    | sched k =>
        have htrue := hs.sched k rfl
        simp [hrunning] at htrue
    | done r => exact .ret (hdone s' hl hs.lock)
    | more q =>
        -- what is left is to create the task
        obtain ⟨t, p, timeQuanta, timeQuantaCtr, rfl, hnone⟩ := hs.more q rfl
        refine (ends_taskCreate hl.consistent hs.ok.1 hnone hs.ok.2 timeQuanta timeQuantaCtr).bind
          fun out s'' hs' => ?_
        obtain ⟨hs', hmore⟩ := hs'
        cases out with
        | sched k =>
            have htrue := hs'.sched k rfl
            simp [hl.osRunning, hrunning] at htrue
        | more q => exact absurd rfl (hmore q)
        | done r => exact .ret (hdone s'' (hl.trans hs'.leads) (hs'.lock.trans hs.lock))
  exact hinitial.bind fun _ _ hs => .ret hs

/-- **Someone calls a service.** -/
lemma call (h : Sound cfg space s phase) (c : Call)
    (he : (Event.call c).Enabled cfg space s.shared phase) :
    ((Event.call c).run cfg phase).Ends (Queues.exec cfg space) s fun r s' =>
      Sound cfg space s' r.2 ∧ Follows cfg (.call c) s s' := by
  obtain ⟨hrunning, hc, a, ha, hidle, happ⟩ := he
  obtain ⟨t, x, hcall⟩ := h.callable hrunning ha hidle happ
  refine .after (run_here_of ha) ((c.ends hcall hc).bind fun out s' hs => .ret ?_)
  obtain ⟨⟨V, hl, hidleV, hout, hV⟩, htidy, hlost⟩ := hs
  refine ⟨h.leave hrunning ha (fun _ k _ => by simp [happ]) hl hidleV hout.phase
    fun u hu hcur => ?_, hl.follows (.inl ⟨c, .inr rfl⟩) htidy fun hloses => ⟨t, hlost hloses⟩⟩
  obtain ⟨hnesting, hlock, k, rfl⟩ := hV u hu hcur
  exact ⟨hnesting, hlock, k, rfl⟩

/-- **Someone goes on with a service.** -/
lemma more (h : Sound cfg space s phase) (he : Event.more.Enabled cfg space s.shared phase)
    (hown : ¬ Event.more.AbortsOther s.shared phase) :
    (Event.more.run cfg phase).Ends (Queues.exec cfg space) s fun r s' =>
      Sound cfg space s' r.2 ∧ Follows cfg .more s s' := by
  obtain ⟨hrunning, a, p, ha, hphase, hvalid⟩ := he
  obtain ⟨-, t, x, -, hx, hprio, -⟩ := h.running hrunning
  have hok : p.Ok cfg space s.shared.tcb := by
    have hplace := h.places a
    rwa [hphase] at hplace
  have hlt : s.shared.osPrioCur < cfg.prioMax := hprio ▸ (h.consistent.tcb t x hx).prio_lt
  have hends := Part.ends h.consistent hlt hok hvalid fun hother => hown ⟨a, p, ha, hphase, hother⟩
  refine .after (run_here_of ha) ?_
  simp only [hphase]
  refine hends.bind fun out s' hs => .ret ?_
  obtain ⟨hl, hout⟩ := hs
  exact ⟨h.leave hrunning ha (fun _ k _ => by simp [hphase]) hl.toLeaves (Set.notMem_empty _)
    hout.phase fun _ ht => absurd ht (Set.notMem_empty _),
    hl.follows (.inr rfl) (fun _ => hl.tidy) False.elim⟩

/-- **Someone calls `OSSched` in a service.** -/
lemma sched (h : Sound cfg space s phase)
    (he : Event.osSched.Enabled cfg space s.shared phase) :
    (Event.osSched.run cfg phase).Ends (Queues.exec cfg space) s fun r s' =>
      Sound cfg space s' r.2 ∧ Follows cfg .osSched s s' := by
  obtain ⟨hrunning, a, k, ha, hphase⟩ := he
  obtain ⟨hne, t, x, hcur, hx, hprio, hor⟩ := h.running hrunning
  have hok : (Phase.finish k).Ok cfg space s.shared.tcb := by
    have hplace := h.places a
    rwa [hphase] at hplace
  have hplaces := h.places_update (a := a) (fun _ => id) hok
  have hsched := ends_osSched h.consistent
    (fun u hu => ⟨x, Option.some_inj.mp (hcur.symm.trans hu) ▸ hx, hprio⟩)
    (exists_rdy h.consistent h.idle hne)
  refine .after (run_here_of ha) ?_
  simp only [hphase]
  refine hsched.bind fun _ s' hs => .ret ?_
  split_ifs at hs with hfree
  · obtain ⟨hsound, hdispatched⟩ :=
      of_dispatches h.consistent h.settled hplaces h.idle hne hrunning hs
    obtain ⟨p, b, L, -, -, rfl⟩ := hs
    have hswitch : Free s := ⟨hfree.2, hfree.1.le.trans zero_le_one⟩
    exact ⟨hsound, .of_eq (by simp) (by simp) rfl rfl (.inr ⟨hswitch, hdispatched⟩) (by simp)
      (fun _ _ _ => hdispatched) (by simp)⟩
  · obtain rfl := hs
    refine ⟨⟨h.consistent, h.settled, hplaces, h.idle, fun _ => ⟨hne, t, x, hcur, hx, hprio, ?_⟩,
      fun hstopped => ?_⟩, .of_eq (by simp) (by simp) rfl rfl (.inl rfl) (by simp)
        (fun _ hzero hlock => absurd ⟨hzero, hlock⟩ hfree) (by simp)⟩
    · refine hor.imp_right fun hpart => ⟨hpart.1, ?_⟩
      -- the scheduler is not locked, so an interrupt routine is at work
      obtain ⟨j, hj⟩ := hpart.2
      have haway : Place.task t ≠ a := by
        rintro rfl
        exact hfree ⟨(Shared.place_eq_task.mp ha).1, hpart.1⟩
      exact ⟨j, (Function.update_of_ne haway _ _).trans hj⟩
    · simp [hrunning] at hstopped

/-- **Someone returns from a service.** -/
lemma finish (h : Sound cfg space s phase)
    (he : Event.finish.Enabled cfg space s.shared phase) :
    (Event.finish.run cfg phase).Ends (Queues.exec cfg space) s fun r s' =>
      Sound cfg space s' r.2 ∧ Follows cfg .finish s s' := by
  obtain ⟨hrunning, a, k, ha, hphase⟩ := he
  obtain ⟨-, t, x, hcur, hx, -, -⟩ := h.running hrunning
  have hok : k.Ok space := by
    have hplace := h.places a
    rwa [hphase] at hplace
  refine .after (run_here_of ha) ?_
  simp only [hphase]
  refine (Cont.ends_run h.consistent hcur hx hok).bind fun r s' hs => .ret ?_
  obtain rfl := hs
  have hl : Leads cfg space ∅ s' s' := .refl h.consistent
  exact ⟨h.leave hrunning ha (fun _ j _ => by simp [hphase]) hl.toLeaves (Set.notMem_empty _)
    trivial fun _ ht => absurd ht (Set.notMem_empty _),
    .of_eq (by simp) (by simp) rfl rfl (.inl rfl) (by simp) (by simp) (by simp)⟩

/-- **The tick task updates the tick list.** -/
lemma tickListUpdate (h : Sound cfg space s phase) (ts : ℕ → ℕ)
    (he : (Event.osTickListUpdate ts).Enabled cfg space s.shared phase) :
    ((Event.osTickListUpdate ts).run cfg phase).Ends (Queues.exec cfg space) s fun r s' =>
      Sound cfg space s' r.2 ∧ Follows cfg (.osTickListUpdate ts) s s' := by
  obtain ⟨hrunning, hplace, happ⟩ := he
  obtain ⟨-, hcur⟩ := Shared.place_eq_task.mp hplace
  obtain ⟨hne, u, x, hcur', hx, hprio, hor⟩ := h.running hrunning
  obtain rfl := Option.some_inj.mp (hcur.symm.trans hcur')
  have hready : x.isReady = true := hor.resolve_right fun hsched => by
    obtain ⟨-, j, hj⟩ := hsched
    simp [happ] at hj
  refine (ends_osTickListUpdate ts h.consistent h.settled).bind fun _ s' hs => .ret ?_
  obtain ⟨hconsistent, hsettled, hvars, htcb⟩ := hs
  -- a task that is ready is in no spoke
  have hsame : ∀ t z, s.shared.tcb t = some z → z.isReady = true → s'.shared.tcb t = some z := by
    intro t z hz hzready
    rw [htcb t, hz, Option.map_some, OsTcb.atTick,
      if_neg fun hdue => hdue.1 ((h.consistent.tcb t z hz).spoke_of_isReady hzready)]
  have htidy : Tidy s s' := by
    intro t y hy hlost
    obtain ⟨z, hz, rfl⟩ := Option.map_eq_some_iff.mp ((htcb t).symm.trans hy)
    refine ⟨z, hz, ?_⟩
    rw [OsTcb.atTick] at hlost
    split_ifs at hlost with hdue
    · simp [(OsTcb.freed_expired (h.consistent.tcb t z hz) (ts t)).not_isLost] at hlost
    · exact hlost
  obtain ⟨z, hz⟩ := Option.ne_none_iff_exists'.mp hne
  have hz' := hsame _ z hz (h.idle z hz)
  have hplaces : ∀ a, (phase a).Ok cfg space s'.shared.tcb := fun a =>
    (h.places a).mono fun u hu => by rwa [htcb u, ne_eq, Option.map_eq_none_iff]
  refine ⟨⟨hconsistent, hsettled, hplaces, fun y hy => ?_, fun _ => ⟨?_, _, x, ?_,
    hsame _ x hx hready, ?_, .inl hready⟩, fun hstopped => ?_⟩,
    ⟨?_, fun t y hy => ⟨_, by rw [htcb t, hy, Option.map_some], rfl⟩, .inl ?_, by simp, by simp,
      by simp, fun _ => htidy, False.elim⟩⟩
  · obtain rfl := Option.some_inj.mp (hz'.symm.trans hy)
    exact h.idle z hz
  · exact hz' ▸ Option.some_ne_none z
  · rw [hvars, hcur]
  · rw [hvars, hprio]
  · simp [hvars, hrunning] at hstopped
  · rw [hvars]
  · rw [hvars]

/-- **An interrupt begins.** -/
lemma intEnter (h : Sound cfg space s phase) :
    (Event.osIntEnter.run cfg phase).Ends (Queues.exec cfg space) s fun r s' =>
      Sound cfg space s' r.2 ∧ Follows cfg .osIntEnter s s' := by
  refine ends_osIntEnter.bind fun _ s' hs => .ret ?_
  rcases hs with rfl | ⟨hrunning, rfl⟩
  · exact ⟨h, .of_eq (by simp) (by simp) rfl rfl (.inl rfl) (by simp) (by simp) (by simp)⟩
  · refine ⟨⟨h.consistent.setVars _ rfl, h.settled, h.places, h.idle, h.running,
      fun hstopped => ?_⟩,
      .of_eq (by simp) (by simp) rfl rfl (.inl rfl) (by simp) (by simp) (by simp)⟩
    simp [hrunning] at hstopped

/-- **An interrupt ends.** -/
lemma intExit (h : Sound cfg space s phase)
    (he : Event.osIntExit.Enabled cfg space s.shared phase) :
    (Event.osIntExit.run cfg phase).Ends (Queues.exec cfg space) s fun r s' =>
      Sound cfg space s' r.2 ∧ Follows cfg .osIntExit s s' := by
  obtain ⟨hrunning, hnesting, -⟩ := he
  obtain ⟨hne, t, x, hcur, hx, hprio, hor⟩ := h.running hrunning
  have hexit := ends_osIntExit h.consistent
    (fun u hu => ⟨x, Option.some_inj.mp (hcur.symm.trans hu) ▸ hx, hprio⟩)
    fun _ => exists_rdy h.consistent h.idle hne
  refine hexit.bind fun _ s' hs => .ret ?_
  rw [IntExits, if_neg (by simp [hrunning, hnesting.ne'])] at hs
  split_ifs at hs with hlast
  · obtain ⟨hsound, hdispatched⟩ := of_dispatches (h.consistent.setVars
      { s.shared.toOsVars with osIntNestingCtr := 0 } rfl) h.settled h.places h.idle hne hrunning hs
    obtain ⟨p, a, L, -, -, rfl⟩ := hs
    have hswitch : Free s := ⟨hlast.2, hlast.1.le⟩
    exact ⟨hsound, .of_eq (by simp) (by simp) rfl rfl (.inr ⟨hswitch, hdispatched⟩) (by simp)
      (by simp) fun _ _ _ => hdispatched⟩
  · obtain rfl := hs
    refine ⟨⟨h.consistent.setVars _ rfl, h.settled, h.places, h.idle, h.running,
      fun hstopped => ?_⟩,
      .of_eq (by simp) (by simp) rfl rfl (.inl rfl) (by simp) (by simp) fun _ hone hlock => ?_⟩
    · simp [hrunning] at hstopped
    · exact absurd ⟨hone, hlock⟩ hlast

/-- **The kernel is started.** -/
lemma start (h : Sound cfg space s phase)
    (he : Event.osStart.Enabled cfg space s.shared phase) :
    (Event.osStart.run cfg phase).Ends (Queues.exec cfg space) s fun r s' =>
      Sound cfg space s' r.2 ∧ Follows cfg .osStart s s' := by
  obtain ⟨hrunning, hne⟩ := he
  refine (ends_osStart h.consistent hrunning (exists_rdy h.consistent h.idle hne)).bind ?_
  rintro err s' ⟨-, hs⟩
  obtain ⟨hsound, hdispatched⟩ := of_dispatches (h.consistent.setVars
    { s.shared.toOsVars with osRunning := true } rfl) h.settled h.places h.idle hne rfl hs
  obtain ⟨p, a, L, -, -, rfl⟩ := hs
  obtain ⟨-, hnesting, hlock⟩ := h.stopped hrunning
  have hswitch : Free s := ⟨hlock, hnesting.le.trans zero_le_one⟩
  exact .ret ⟨hsound, .of_eq (by simp) (by simp) rfl rfl (.inr ⟨hswitch, hdispatched⟩)
    (fun _ => hdispatched) (by simp) (by simp)⟩

/-- **Every event that can happen ends, and leaves a sound kernel**, unless it aborts a wait for
another object than it was told. -/
lemma step (h : Sound cfg space s phase) (e : Event) (he : e.Enabled cfg space s.shared phase)
    (hown : ¬ e.AbortsOther s.shared phase) :
    (e.run cfg phase).Ends (Queues.exec cfg space) s fun r s' =>
      Sound cfg space s' r.2 ∧ Follows cfg e s s' := by
  cases e with
  | init c => exact h.init c he
  | osStart => exact h.start he
  | call c => exact h.call c he
  | more => exact h.more he hown
  | osSched => exact h.sched he
  | finish => exact h.finish he
  | osTickListUpdate ts => exact h.tickListUpdate ts he
  | osIntEnter => exact h.intEnter
  | osIntExit => exact h.intExit he

/-- What a service leaves is what is left when it is called in an event. -/
lemma ends_call {c : Call} (henabled : (Event.call c).Enabled cfg space s.shared phase)
    {Q : Queues → Prop} (hQ : (c.run cfg).Ends (Queues.exec cfg space) s fun _ s' => Q s') :
    ((Event.call c).run cfg phase).Ends (Queues.exec cfg space) s fun _ s' => Q s' := by
  obtain ⟨-, -, a, ha, -⟩ := henabled
  exact .after (run_here_of ha) (hQ.bind fun _ _ hs => .ret hs)

end Sound

end Steps

end Wgs.Ucos
