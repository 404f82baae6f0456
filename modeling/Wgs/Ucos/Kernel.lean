import Wgs.Foundation.Programs
import Wgs.Ucos.TickList

/-!
`os_core.c`, `os_tick.c`, `os_time.c`, `os_sem.c` and `os_task.c` of `uCOS-III/Source`: the
services of the kernel, for tasks that are delayed, wait for semaphores or are suspended.

The services are programs over commands: they read and write what the kernel shares, and they have
the ready lists, the lists of the waiting tasks and the tick wheel changed.  A service is cut where
an interrupt can come in and something may have changed: an `Outcome` says whether a service returns
there, has another `Part`, or calls `OSSched`, and a `Cont` what it still does when the task runs
again.  What a service checks before it disables the interrupts and no interrupt changes belongs to
the part that follows.
-/

namespace Wgs.Ucos

open Foundation

/-! ### The data of the kernel -/

/-- `OS_TASK_STATE_xxx`; a task is never deleted. -/
inductive TaskState where
  | rdy
  | dly
  | pend
  | pendTimeout
  | suspended
  | dlySuspended
  | pendSuspended
  | pendTimeoutSuspended
  deriving DecidableEq

namespace TaskState

/-- `OS_TASK_STATE_BIT_SUSPENDED` -/
def isSuspended : TaskState → Bool
  | suspended | dlySuspended | pendSuspended | pendTimeoutSuspended => true
  | _ => false

/-- `OS_TASK_STATE_BIT_PEND` -/
def isPend : TaskState → Bool
  | pend | pendTimeout | pendSuspended | pendTimeoutSuspended => true
  | _ => false

/-- `OS_TASK_STATE_BIT_DLY` -/
def isDly : TaskState → Bool
  | dly | pendTimeout | dlySuspended | pendTimeoutSuspended => true
  | _ => false

end TaskState

/-- `OS_TASK_PEND_ON_xxx`, of the objects of the model. -/
inductive PendOn where
  | nothing
  | sem
  | taskSem
  deriving DecidableEq

/-- `OS_STATUS_PEND_xxx`; an object is never deleted. -/
inductive PendStatus where
  | ok
  | abort
  | timeout
  deriving DecidableEq

/-- `OS_SEM_CTR` -/
abbrev SemCtr := BitVec 32

/-- `OS_TCB`, the fields the model uses.  `TickSpokePtr` is the index of the spoke. -/
structure OsTcb where
  prio : ℕ
  taskState : TaskState
  pendOn : PendOn
  pendStatus : PendStatus
  pendDataTblPtr : Ptr
  pendDataTblEntries : ℕ
  semCtr : SemCtr
  ts : ℕ
  tickCtrPrev : Tick
  tickCtrMatch : Tick
  tickSpokePtr : Option ℕ
  timeQuanta : Tick
  timeQuantaCtr : Tick
  suspendCtr : BitVec 8
  deriving DecidableEq

namespace OsTcb

/-- `TaskState` is set. -/
@[simps]
def toState (x : OsTcb) (taskState : TaskState) : OsTcb := { x with taskState := taskState }

/-- `TS` is set. -/
@[simps]
def stamp (x : OsTcb) (ts : ℕ) : OsTcb := { x with ts := ts }

/-- `PendDataTblPtr` and `PendDataTblEntries` are cleared. -/
@[simps]
def unlisted (x : OsTcb) : OsTcb := { x with pendDataTblEntries := 0, pendDataTblPtr := none }

/-- `TickSpokePtr` and `TickCtrMatch` are cleared. -/
@[simps]
def unwheeled (x : OsTcb) : OsTcb := { x with tickSpokePtr := none, tickCtrMatch := 0 }

/-- The beginning of a wait. -/
@[simps]
def pending (x : OsTcb) (pendOn : PendOn) : OsTcb := { x with pendOn := pendOn, pendStatus := .ok }

/-- `PendDataTblPtr` and `PendDataTblEntries` are set. -/
@[simps]
def listedAt (x : OsTcb) (pPendDataTbl tblSize : ℕ) : OsTcb :=
  { x with pendDataTblEntries := tblSize, pendDataTblPtr := some pPendDataTbl }

/-- `TickCtrMatch` and `TickCtrPrev` are set. -/
@[simps]
def dueAt (x : OsTcb) (tickCtrMatch tickCtrPrev : Tick) : OsTcb :=
  { x with tickCtrMatch := tickCtrMatch, tickCtrPrev := tickCtrPrev }

/-- `TickSpokePtr` is set. -/
@[simps]
def inSpoke (x : OsTcb) (spoke : ℕ) : OsTcb := { x with tickSpokePtr := some spoke }

/-- The end of a wait. -/
@[simps]
def unpended (x : OsTcb) (taskState : TaskState) (pendStatus : PendStatus) : OsTcb :=
  { x with taskState := taskState, pendStatus := pendStatus, pendOn := .nothing }

end OsTcb

/-- The field `Type` of an object. -/
inductive ObjType where
  | none
  | sem
  | other
  deriving DecidableEq

/-- `OS_SEM`, without its list. -/
structure OsSem where
  type : ObjType
  ctr : SemCtr
  ts : ℕ
  deriving DecidableEq

/-- `OS_PEND_DATA`, without its links. -/
structure OsPendData where
  tcbPtr : ℕ
  pendObjPtr : ℕ
  deriving DecidableEq

/-- The variables of the kernel. -/
structure OsVars where
  osRunning : Bool
  osIntNestingCtr : ℕ
  osSchedLockNestingCtr : ℕ
  osPrioCur : ℕ
  osPrioHighRdy : ℕ
  osTcbCurPtr : Ptr
  osTcbHighRdyPtr : Ptr
  osTickCtr : Tick
  osSchedRoundRobinEn : Bool
  osSchedRoundRobinDfltTimeQuanta : Tick
  osTmrUpdateCtr : BitVec 32
  deriving DecidableEq

/-- What the services read and write themselves: the variables, the `OS_TCB`s of the tasks that
were created, the `OS_SEM`s and the `OS_PEND_DATA`. -/
structure Shared extends OsVars where
  tcb : Mem OsTcb
  sem : Mem OsSem
  pendData : Mem OsPendData

/-- What `OSInit` makes of the variables, over any memory of objects. -/
def osInit (cfg : Config) (sem : Mem OsSem) (pendData : Mem OsPendData) : Shared where
  osRunning := false
  osIntNestingCtr := 0
  osSchedLockNestingCtr := 0
  osPrioCur := 0
  osPrioHighRdy := 0
  osTcbCurPtr := none
  osTcbHighRdyPtr := none
  osTickCtr := 0
  osSchedRoundRobinEn := false
  osSchedRoundRobinDfltTimeQuanta := BitVec.ofNat 32 (cfg.tickRateHz / 10)
  osTmrUpdateCtr := cfg.tmrUpdateCnt
  tcb := fun _ => none
  sem := sem
  pendData := pendData

/-! ### Commands and programs -/

/-- What a service asks for. -/
inductive Cmd where
  | get
  | set (s : Shared)
  | fail
  | prioGetHighest
  | rdyHead (prio : ℕ)
  | rdyEntries (prio : ℕ)
  | prioInsertHead (prio pTcb : ℕ)
  | prioInsertTail (prio pTcb : ℕ)
  | rdyMoveHeadToTail (prio : ℕ)
  | rdyRemove (prio pTcb : ℕ)
  | pendHead (pObj : ℕ)
  | pendEntries (pObj : ℕ)
  | pendNext (pPendData : ℕ)
  | pendInit (pObj : ℕ)
  | pendDataReset (pPendData : ℕ)
  | pendInsertPrio (pObj pPendData : ℕ)
  | pendRemove1 (pObj pPendData : ℕ)
  | tickFirst (spoke : ℕ)
  | tickEntries (spoke : ℕ)
  | tickNext (pTcb : ℕ)
  | tickRemain (pTcb : ℕ) (remain : Tick)
  | tickLink (pTcb spoke : ℕ) (remain : Tick)
  | tickUnlink (pTcb spoke : ℕ)

/-- The type of the reply to a command. -/
abbrev Cmd.Reply : Cmd → Type
  | get => Shared
  | fail => Empty
  | prioGetHighest | rdyEntries _ | pendEntries _ | tickEntries _ => ℕ
  | rdyHead _ | pendHead _ | pendNext _ | tickFirst _ | tickNext _ => Ptr
  | _ => Unit

/-- A program of the kernel. -/
abbrev Kernel := Prog Cmd Cmd.Reply

namespace Kernel

/-- A command is executed. -/
def ask (c : Cmd) : Kernel c.Reply := .call c

/-- What the kernel shares. -/
def get : Kernel Shared := ask .get

/-- A part of what the kernel shares is written. -/
def modify (f : Shared → Shared) : Kernel Unit := do
  let s ← get
  ask (.set (f s))

/-- A value that has to be there. -/
def require {α : Type} : Option α → Kernel α
  | some a => pure a
  | none => .cmd .fail Empty.elim

/-- `*p_tcb` -/
def tcb (pTcb : ℕ) : Kernel OsTcb := do
  let s ← get
  require (s.tcb pTcb)

def modifyTcb (pTcb : ℕ) (f : OsTcb → OsTcb) : Kernel Unit := do
  let s ← get
  let tcb ← require (s.tcb.modify (some pTcb) f)
  ask (.set { s with tcb := tcb })

/-- `*p_sem` -/
def sem (pSem : ℕ) : Kernel OsSem := do
  let s ← get
  require (s.sem pSem)

def modifySem (pSem : ℕ) (f : OsSem → OsSem) : Kernel Unit := do
  let s ← get
  let sem ← require (s.sem.modify (some pSem) f)
  ask (.set { s with sem := sem })

/-- `*p_pend_data` -/
def pendData (pPendData : ℕ) : Kernel OsPendData := do
  let s ← get
  require (s.pendData pPendData)

def modifyPendData (pPendData : ℕ) (f : OsPendData → OsPendData) : Kernel Unit := do
  let s ← get
  let pendData ← require (s.pendData.modify (some pPendData) f)
  ask (.set { s with pendData := pendData })

/-- `OSTCBCurPtr`, where it is dereferenced. -/
def cur : Kernel ℕ := do
  let s ← get
  require s.osTcbCurPtr

end Kernel

open Ucos.Kernel

/-! ### `os_tick.c`, `os_core.c`: a task is made ready, or waits -/

def osOptTimeDly : BitVec 16 := 0x0000

def osOptTimeTimeout : BitVec 16 := 0x0002

def osOptTimeMatch : BitVec 16 := 0x0004

def osOptTimePeriodic : BitVec 16 := 0x0008

/-- `OS_OPT_TIME_HMSM_NON_STRICT` -/
def osOptTimeHmsmNonStrict : BitVec 16 := 0x0010

/-- `OS_OPT_TIME_MASK` -/
def osOptTimeMask : BitVec 16 :=
  osOptTimeDly ||| osOptTimeTimeout ||| osOptTimePeriodic ||| osOptTimeMatch

/-- `OS_OPT_TIME_OPTS_MASK` -/
def osOptTimeOptsMask : BitVec 16 := osOptTimeMask ||| osOptTimeHmsmNonStrict

/-- `OS_TICK_TH_RDY` -/
def osTickThRdy : Tick := 0xFFFF0000

/-- `OS_TICK_TH_INIT` -/
def osTickThInit : Tick := 0x80000000

variable (cfg : Config)

/-- `OS_TickListInsert`, from `spoke = ...` on: the task goes into its spoke. -/
def tickListInsertSpoke (pTcb : ℕ) (tickRemain : Tick) : Kernel OsErr := do
  let tcb ← tcb pTcb
  let spoke := tcb.tickCtrMatch.toNat % cfg.tickWheelSize
  ask (.tickLink pTcb spoke tickRemain)
  modifyTcb pTcb fun x => x.inSpoke spoke
  return .none

/-- `OS_TickListInsert`, where there is no time to wait. -/
def tickListRefuse (pTcb : ℕ) : Kernel OsErr := do
  modifyTcb pTcb OsTcb.unwheeled
  ask (.tickRemain pTcb 0)
  return .timeZeroDly

/-- `OS_TickListInsert` -/
def osTickListInsert (pTcb : ℕ) (time : Tick) (opt : BitVec 16) : Kernel OsErr := do
  let s ← get
  let tcb ← tcb pTcb
  if opt = osOptTimeMatch then
    let tickDelta := time - s.osTickCtr - 1
    if tickDelta > osTickThRdy then tickListRefuse pTcb
    else
      modifyTcb pTcb fun x => x.dueAt time x.tickCtrPrev
      tickListInsertSpoke cfg pTcb (tickDelta + 1)
  else if time > 0 then
    if opt = osOptTimePeriodic then
      let tickNext := tcb.tickCtrPrev + time
      let tickDelta := tickNext - s.osTickCtr - 1
      let tickCtrMatch := if tickDelta < time then tickNext else s.osTickCtr + time
      modifyTcb pTcb fun x => x.dueAt tickCtrMatch tickCtrMatch
      tickListInsertSpoke cfg pTcb (tickCtrMatch - s.osTickCtr)
    else
      modifyTcb pTcb fun x => x.dueAt (s.osTickCtr + time) x.tickCtrPrev
      tickListInsertSpoke cfg pTcb time
  else tickListRefuse pTcb

/-- `OS_TickListRemove` -/
def osTickListRemove (pTcb : ℕ) : Kernel Unit := do
  let tcb ← tcb pTcb
  match tcb.tickSpokePtr with
  | none => return
  | some spoke => do
      ask (.tickRemain pTcb 0)
      ask (.tickUnlink pTcb spoke)
      modifyTcb pTcb OsTcb.unwheeled

/-- `OS_RdyListInsert` -/
def osRdyListInsert (pTcb : ℕ) : Kernel Unit := do
  let s ← get
  let tcb ← tcb pTcb
  if tcb.prio = s.osPrioCur then ask (.prioInsertTail tcb.prio pTcb)
  else ask (.prioInsertHead tcb.prio pTcb)

/-- `OS_RdyListRemove`, of the list of the task's priority. -/
def osRdyListRemoveOf (pTcb : ℕ) : Kernel Unit := do
  let tcb ← tcb pTcb
  ask (.rdyRemove tcb.prio pTcb)

/-- `OS_TaskRdy` -/
def osTaskRdy (pTcb : ℕ) : Kernel Unit := do
  osTickListRemove pTcb
  let tcb ← tcb pTcb
  if tcb.taskState.isSuspended then return
  else osRdyListInsert pTcb

/-- `OS_TaskBlock`, the state of the task, which goes into the tick wheel if there is a timeout. -/
def taskBlockState (pTcb : ℕ) (timeout : Tick) : Kernel TaskState := do
  if timeout > 0 then
    let err ← osTickListInsert cfg pTcb timeout osOptTimeTimeout
    return if err = .none then .pendTimeout else .pend
  else return .pend

/-- `OS_TaskBlock` -/
def osTaskBlock (pTcb : ℕ) (timeout : Tick) : Kernel Unit := do
  let taskState ← taskBlockState cfg pTcb timeout
  modifyTcb pTcb fun x => x.toState taskState
  osRdyListRemoveOf pTcb

/-- The loop of `OS_PendDataInit`. -/
def pendDataInitLoop (pTcb : ℕ) : ℕ → ℕ → Kernel Unit
  | 0, _ => return
  | n + 1, pPendDataTbl => do
      ask (.pendDataReset pPendDataTbl)
      modifyPendData pPendDataTbl fun e => { e with tcbPtr := pTcb }
      pendDataInitLoop pTcb n (pPendDataTbl + 1)

/-- `OS_PendDataInit` -/
def osPendDataInit (pTcb pPendDataTbl tblSize : ℕ) : Kernel Unit := do
  modifyTcb pTcb fun x => x.listedAt pPendDataTbl tblSize
  pendDataInitLoop pTcb tblSize pPendDataTbl

/-- `OS_Pend`, the object: the task goes into its list. -/
def pendOnObj (pTcb : ℕ) (pPendData pObj : Ptr) : Kernel Unit :=
  match pObj with
  | some o => do
      let d ← require pPendData
      modifyPendData d fun e => { e with pendObjPtr := o }
      osPendDataInit pTcb d 1
      ask (.pendInsertPrio o d)
  | none => modifyTcb pTcb OsTcb.unlisted

/-- `OS_Pend` -/
def osPend (pPendData pObj : Ptr) (pendingOn : PendOn) (timeout : Tick) : Kernel Unit := do
  let pTcb ← cur
  modifyTcb pTcb fun x => x.pending pendingOn
  osTaskBlock cfg pTcb timeout
  pendOnObj pTcb pPendData pObj

/-- The loop of `OS_PendListRemove`. -/
def pendListRemoveLoop : ℕ → Ptr → Kernel Unit
  | 0, _ => return
  | n + 1, pPendData => do
      let d ← require pPendData
      let e ← pendData d
      ask (.pendRemove1 e.pendObjPtr d)
      pendListRemoveLoop n (some (d + 1))

/-- `OS_PendListRemove` -/
def osPendListRemove (pTcb : ℕ) : Kernel Unit := do
  let tcb ← tcb pTcb
  pendListRemoveLoop tcb.pendDataTblEntries tcb.pendDataTblPtr
  modifyTcb pTcb OsTcb.unlisted

/-- `if (p_obj != 0) OS_PendListRemove(p_tcb);` -/
def pendListRemoveFrom (pObj : Ptr) (pTcb : ℕ) : Kernel Unit :=
  if pObj = none then pure () else osPendListRemove pTcb

/-- `OS_PendAbort` -/
def osPendAbort (pObj : Ptr) (pTcb ts : ℕ) : Kernel Unit := do
  let tcb ← tcb pTcb
  match tcb.taskState with
  | .rdy | .dly | .suspended | .dlySuspended => return
  | .pend | .pendTimeout => do
      modifyTcb pTcb fun x => x.stamp ts
      pendListRemoveFrom pObj pTcb
      osTaskRdy pTcb
      modifyTcb pTcb fun x => x.unpended .rdy .abort
  | .pendSuspended | .pendTimeoutSuspended => do
      modifyTcb pTcb fun x => x.stamp ts
      pendListRemoveFrom pObj pTcb
      osTickListRemove pTcb
      modifyTcb pTcb fun x => x.unpended .suspended .abort

/-- `OS_Post` -/
def osPost (pObj : Ptr) (pTcb ts : ℕ) : Kernel Unit := do
  let tcb ← tcb pTcb
  match tcb.taskState with
  | .rdy | .dly | .suspended | .dlySuspended => return
  | .pend | .pendTimeout => do
      modifyTcb pTcb fun x => x.stamp ts
      pendListRemoveFrom pObj pTcb
      osTaskRdy pTcb
      modifyTcb pTcb fun x => x.unpended .rdy .ok
  | .pendSuspended | .pendTimeoutSuspended => do
      modifyTcb pTcb fun x => x.stamp ts
      osTickListRemove pTcb
      pendListRemoveFrom pObj pTcb
      modifyTcb pTcb fun x => x.unpended .suspended .ok

/-- `OS_TickListUpdate`, a task whose time has come. -/
def tickExpire (pTcb ts : ℕ) : TaskState → Kernel Unit
  | .rdy | .pend | .suspended | .pendSuspended => return
  | .dly => do
      modifyTcb pTcb fun x => x.toState .rdy
      osTaskRdy pTcb
  | .pendTimeout => do
      modifyTcb pTcb fun x => x.stamp ts
      osPendListRemove pTcb
      osTaskRdy pTcb
      modifyTcb pTcb fun x => x.unpended .rdy .timeout
  | .dlySuspended => do
      modifyTcb pTcb fun x => x.toState .suspended
      osTickListRemove pTcb
  | .pendTimeoutSuspended => do
      modifyTcb pTcb fun x => x.stamp ts
      osPendListRemove pTcb
      osTickListRemove pTcb
      modifyTcb pTcb fun x => x.unpended .suspended .timeout

/-- The loop of `OS_TickListUpdate`, which takes one step for each task of the spoke.  `ts` is what
`OS_TS_GET` returns when a task's time has come. -/
def tickListUpdateLoop (ts : ℕ → ℕ) (osTickCtr : Tick) : ℕ → Ptr → Kernel Unit
  | _, none => return
  | 0, some _ => require none
  | n + 1, some pTcb => do
      let next ← ask (.tickNext pTcb)
      let tcb ← tcb pTcb
      if tcb.taskState.isDly then
        ask (.tickRemain pTcb (tcb.tickCtrMatch - osTickCtr))
        if osTickCtr = tcb.tickCtrMatch then
          tickExpire pTcb (ts pTcb) tcb.taskState
          tickListUpdateLoop ts osTickCtr n next
        else return
      else tickListUpdateLoop ts osTickCtr n next

/-- `OS_TickListUpdate` -/
def osTickListUpdate (ts : ℕ → ℕ) : Kernel Unit := do
  modify fun s => { s with osTickCtr := s.osTickCtr + 1 }
  let s ← get
  let spoke := s.osTickCtr.toNat % cfg.tickWheelSize
  let pTcb ← ask (.tickFirst spoke)
  let n ← ask (.tickEntries spoke)
  tickListUpdateLoop ts s.osTickCtr n pTcb

/-! ### `os_core.c`: the scheduler -/

/-- `OSPrioHighRdy` and `OSTCBHighRdyPtr` are set, and there is a switch to the task if it is
another one than the current one. -/
def switchToHighRdy : Kernel Unit := do
  let osPrioHighRdy ← ask .prioGetHighest
  let osTcbHighRdyPtr ← ask (.rdyHead osPrioHighRdy)
  modify fun s => { s with osPrioHighRdy := osPrioHighRdy, osTcbHighRdyPtr := osTcbHighRdyPtr }
  let s ← get
  if s.osTcbHighRdyPtr = s.osTcbCurPtr then return
  else
    ask (.set { s with
      osPrioCur := (cfg.osCtxSw s.osPrioHighRdy s.osTcbHighRdyPtr).1
      osTcbCurPtr := (cfg.osCtxSw s.osPrioHighRdy s.osTcbHighRdyPtr).2 })

/-- `OSSched` -/
def osSched : Kernel Unit := do
  let s ← get
  if 0 < s.osIntNestingCtr then return
  else if 0 < s.osSchedLockNestingCtr then return
  else switchToHighRdy cfg

/-- `OSIntEnter` -/
def osIntEnter : Kernel Unit := do
  let s ← get
  if s.osRunning = false then return
  else if 250 ≤ s.osIntNestingCtr then return
  else modify fun s => { s with osIntNestingCtr := s.osIntNestingCtr + 1 }

/-- `OSIntExit` -/
def osIntExit : Kernel Unit := do
  let s ← get
  if s.osRunning = false then return
  else if s.osIntNestingCtr = 0 then return
  else
    modify fun s => { s with osIntNestingCtr := s.osIntNestingCtr - 1 }
    if 0 < s.osIntNestingCtr - 1 then return
    else if 0 < s.osSchedLockNestingCtr then return
    else switchToHighRdy cfg

/-- `OSStart`: the error, where it returns. -/
def osStart : Kernel OsErr := do
  let s ← get
  if s.osRunning = false then
    let osPrioHighRdy ← ask .prioGetHighest
    let osTcbHighRdyPtr ← ask (.rdyHead osPrioHighRdy)
    modify fun s => { s with
      osPrioHighRdy := osPrioHighRdy
      osPrioCur := osPrioHighRdy
      osTcbHighRdyPtr := osTcbHighRdyPtr
      osTcbCurPtr := osTcbHighRdyPtr
      osRunning := true }
    return .none
  else return .osRunning

/-- The time quanta of the first task of a list begin again. -/
def timeQuantaRestart (prio : ℕ) : Kernel Unit := do
  let head ← ask (.rdyHead prio)
  let pTcb ← require head
  let s ← get
  modifyTcb pTcb fun x => { x with
    timeQuantaCtr :=
      if x.timeQuanta = 0 then s.osSchedRoundRobinDfltTimeQuanta else x.timeQuanta }

/-- `OS_SchedRoundRobin` for the list of a priority, from `if (p_tcb->TimeQuantaCtr > 0)` on. -/
def schedRoundRobinOf (prio pTcb : ℕ) : Kernel Unit := do
  modifyTcb pTcb fun x => { x with
    timeQuantaCtr := if x.timeQuantaCtr > 0 then x.timeQuantaCtr - 1 else x.timeQuantaCtr }
  let tcb ← tcb pTcb
  let n ← ask (.rdyEntries prio)
  let s ← get
  if tcb.timeQuantaCtr > 0 then return
  else if n < 2 then return
  else if 0 < s.osSchedLockNestingCtr then return
  else
    ask (.rdyMoveHeadToTail prio)
    timeQuantaRestart prio

/-- `OS_SchedRoundRobin` for the list of a priority, from `CPU_CRITICAL_ENTER()` on. -/
def osSchedRoundRobin (prio : ℕ) : Kernel Unit := do
  let head ← ask (.rdyHead prio)
  match head with
  | none => return
  | some pTcb => if pTcb = cfg.osIdleTaskTcb then return else schedRoundRobinOf prio pTcb

/-! ### The services -/

/-- What a service returns: `*p_err`, its value, and what it writes to `*p_ts`, if it does. -/
structure Ret where
  err : OsErr
  value : ℕ
  ts : Option ℕ
  deriving DecidableEq

/-- What a service does after `OSSched`. -/
inductive Cont where
  | ret (r : Ret)
  | semPend (pSem : ℕ)
  | taskSemPend
  deriving DecidableEq

/-- What is left of a service behind a place where an interrupt can come in. -/
inductive Part where
  /-- `OSSchedRoundRobinYield`, from `CPU_CRITICAL_ENTER()` on. -/
  | roundRobinYield
  /-- `OSTaskCreate`, from `OS_CRITICAL_ENTER()` on, with the time quanta that were set before. -/
  | taskCreate (pTcb prio : ℕ) (timeQuanta timeQuantaCtr : Tick)
  /-- `OSTaskSemPendAbort`, from `OS_CRITICAL_ENTER()` on. -/
  | taskSemPendAbort (pTcb : ℕ) (opt : BitVec 16) (ts : ℕ)
  /-- `OSTimeTick`, from the call of `OS_SchedRoundRobin` on. -/
  | tickRoundRobin (ts : ℕ)
  /-- `OSTimeTick`, from `CPU_CRITICAL_ENTER()` in `OS_SchedRoundRobin` on. -/
  | tickRotate (prio ts : ℕ)
  /-- `OSTimeTick`, from `OSTmrUpdateCtr--` on, which reads the counter first. -/
  | tickTmrRead (ts : ℕ)
  /-- `OSTimeTick`, where `OSTmrUpdateCtr--` stores the counter. -/
  | tickTmrWrite (osTmrUpdateCtr : BitVec 32) (ts : ℕ)
  /-- `OSTimeTick`, from the test of the counter on. -/
  | tickTmrTest (ts : ℕ)
  /-- `OSTimeTick`, from `OSTmrUpdateCtr = OSTmrUpdateCnt` on. -/
  | tickTmrLoad (ts : ℕ)
  /-- `OSTimeTick`, the post to the timer task. -/
  | tickTmrPost (ts : ℕ)
  deriving DecidableEq

/-- Where a service is cut: it returns, it has another part, or it calls `OSSched`. -/
inductive Outcome where
  | done (r : Ret)
  | more (p : Part)
  | sched (k : Cont)
  deriving DecidableEq

/-- A service returns with an error. -/
def refuse (err : OsErr) : Outcome := .done ⟨err, 0, none⟩

/-- A service without a value returns. -/
def returned : Ret := ⟨.none, 0, none⟩

def osOptPendBlocking : BitVec 16 := 0x0000

def osOptPendNonBlocking : BitVec 16 := 0x8000

def osOptPendAbort1 : BitVec 16 := 0x0000

def osOptPendAbortAll : BitVec 16 := 0x0100

def osOptPostNone : BitVec 16 := 0x0000

def osOptPost1 : BitVec 16 := 0x0000

def osOptPostAll : BitVec 16 := 0x0200

def osOptPostNoSched : BitVec 16 := 0x8000

/-- `OSSched` follows if the options do not say otherwise. -/
def schedUnless (opt : BitVec 16) (r : Ret) : Outcome :=
  if opt &&& osOptPostNoSched = 0 then .sched (.ret r) else .done r

/-- `OSSchedLock` -/
def osSchedLock : Kernel Outcome := do
  let s ← get
  if 0 < s.osIntNestingCtr then return refuse .schedLockIsr
  else if s.osRunning = false then return refuse .osNotRunning
  else if 250 ≤ s.osSchedLockNestingCtr then return refuse .lockNestingOvf
  else
    modify fun s => { s with osSchedLockNestingCtr := s.osSchedLockNestingCtr + 1 }
    return .done returned

/-- `OSSchedUnlock` -/
def osSchedUnlock : Kernel Outcome := do
  let s ← get
  if 0 < s.osIntNestingCtr then return refuse .schedUnlockIsr
  else if s.osRunning = false then return refuse .osNotRunning
  else if s.osSchedLockNestingCtr = 0 then return refuse .schedNotLocked
  else
    modify fun s => { s with osSchedLockNestingCtr := s.osSchedLockNestingCtr - 1 }
    if 0 < s.osSchedLockNestingCtr - 1 then return refuse .schedLocked
    else return .sched (.ret returned)

/-- `OSSchedRoundRobinCfg` -/
def osSchedRoundRobinCfg (en : Bool) (dfltTimeQuanta : Tick) : Kernel Outcome := do
  modify fun s => { s with
    osSchedRoundRobinEn := en
    osSchedRoundRobinDfltTimeQuanta :=
      if dfltTimeQuanta > 0 then dfltTimeQuanta else BitVec.ofNat 32 (cfg.tickRateHz / 10) }
  return .done returned

/-- `OSSchedRoundRobinYield`, from `CPU_CRITICAL_ENTER()` on. -/
def roundRobinYield : Kernel Outcome := do
  let s ← get
  let n ← ask (.rdyEntries s.osPrioCur)
  if n < 2 then return refuse .roundRobin1
  else
    ask (.rdyMoveHeadToTail s.osPrioCur)
    timeQuantaRestart s.osPrioCur
    return .sched (.ret returned)

/-- `OSSchedRoundRobinYield` -/
def osSchedRoundRobinYield : Kernel Outcome := do
  let s ← get
  if 0 < s.osIntNestingCtr then return refuse .yieldIsr
  else if 0 < s.osSchedLockNestingCtr then return refuse .schedLocked
  else if s.osSchedRoundRobinEn = false then return refuse .roundRobinDisabled
  else return .more .roundRobinYield

/-- `OSTimeDly`, from `OS_CRITICAL_ENTER()` on: the task is delayed, unless it is time already. -/
def timeDly (dly : Tick) (opt : BitVec 16) : Kernel Outcome := do
  let pTcb ← cur
  modifyTcb pTcb fun x => x.toState .dly
  let err ← osTickListInsert cfg pTcb dly opt
  if err ≠ .none then return refuse err
  else
    osRdyListRemoveOf pTcb
    return .sched (.ret returned)

/-- `OSTimeDly` -/
def osTimeDly (dly : Tick) (opt : BitVec 16) : Kernel Outcome := do
  let s ← get
  if 0 < s.osIntNestingCtr then return refuse .timeDlyIsr
  else if 0 < s.osSchedLockNestingCtr then return refuse .schedLocked
  else if opt = osOptTimeDly ∨ opt = osOptTimeTimeout ∨ opt = osOptTimePeriodic then
    if dly = 0 then return refuse .timeZeroDly else timeDly cfg dly opt
  else if opt = osOptTimeMatch then timeDly cfg dly opt
  else return refuse .optInvalid

/-- `OSTimeDlyHMSM`, the checks of the arguments: the error, if one fails. -/
def hmsmInvalid (hours minutes seconds : BitVec 16) (milli : BitVec 32) (opt : BitVec 16) :
    Option OsErr :=
  if opt &&& ~~~osOptTimeOptsMask ≠ 0 then some .optInvalid
  else if opt &&& osOptTimeHmsmNonStrict = 0 then
    if milli > 999 then some .timeInvalidMilliseconds
    else if seconds > 59 then some .timeInvalidSeconds
    else if minutes > 59 then some .timeInvalidMinutes
    else if hours > 99 then some .timeInvalidHours
    else none
  else if minutes > 9999 then some .timeInvalidMinutes
  else if hours > 999 then some .timeInvalidHours
  else none

/-- `OSTimeDlyHMSM`, the number of ticks. -/
def hmsmTicks (hours minutes seconds : BitVec 16) (milli : BitVec 32) : Tick :=
  let tickRate : Tick := BitVec.ofNat 32 cfg.tickRateHz
  (hours.setWidth 32 * 3600 + minutes.setWidth 32 * 60 + seconds.setWidth 32) * tickRate
    + tickRate * (milli + 500 / tickRate) / 1000

/-- `OSTimeDlyHMSM`, from the checks of the arguments on. -/
def timeDlyHmsm (hours minutes seconds : BitVec 16) (milli : BitVec 32) (opt : BitVec 16) :
    Kernel Outcome :=
  match hmsmInvalid hours minutes seconds milli opt with
  | some err => return refuse err
  | none =>
      let ticks := hmsmTicks cfg hours minutes seconds milli
      if ticks > 0 then timeDly cfg ticks (opt &&& osOptTimeMask)
      else return refuse .timeZeroDly

/-- `OSTimeDlyHMSM` -/
def osTimeDlyHmsm (hours minutes seconds : BitVec 16) (milli : BitVec 32) (opt : BitVec 16) :
    Kernel Outcome := do
  let s ← get
  if 0 < s.osIntNestingCtr then return refuse .timeDlyIsr
  else if 0 < s.osSchedLockNestingCtr then return refuse .schedLocked
  else
    let optTime := opt &&& osOptTimeMask
    if optTime = osOptTimeDly ∨ optTime = osOptTimeTimeout ∨ optTime = osOptTimePeriodic then
      if milli = 0 ∧ seconds = 0 ∧ minutes = 0 ∧ hours = 0 then return refuse .timeZeroDly
      else timeDlyHmsm cfg hours minutes seconds milli opt
    else if optTime = osOptTimeMatch then timeDlyHmsm cfg hours minutes seconds milli opt
    else return refuse .optInvalid

/-- `OSSemCreate` -/
def osSemCreate (pSem : Ptr) (cnt : SemCtr) : Kernel Outcome := do
  let s ← get
  if 0 < s.osIntNestingCtr then return refuse .createIsr
  else
    match pSem with
    | none => return refuse .objPtrNull
    | some o => do
        modifySem o fun _ => ⟨.sem, cnt, 0⟩
        ask (.pendInit o)
        return .done returned

/-- `OSSemPend`, from `CPU_CRITICAL_ENTER()` on. -/
def semPendOf (o pendData : ℕ) (timeout : Tick) (opt : BitVec 16) : Kernel Outcome := do
  let s ← get
  let sem ← sem o
  if sem.ctr > 0 then
    modifySem o fun x => { x with ctr := x.ctr - 1 }
    return .done ⟨.none, (sem.ctr - 1).toNat, some sem.ts⟩
  else if opt &&& osOptPendNonBlocking ≠ 0 then
    return .done ⟨.pendWouldBlock, sem.ctr.toNat, some 0⟩
  else if 0 < s.osSchedLockNestingCtr then return .done ⟨.schedLocked, 0, some 0⟩
  else
    osPend cfg (some pendData) (some o) .sem timeout
    return .sched (.semPend o)

/-- `OSSemPend`; `pendData` is the address of its local variable. -/
def osSemPend (pSem : Ptr) (pendData : ℕ) (timeout : Tick) (opt : BitVec 16) : Kernel Outcome := do
  let s ← get
  if 0 < s.osIntNestingCtr then return refuse .pendIsr
  else
    match pSem with
    | none => return refuse .objPtrNull
    | some o => do
        if ¬ (opt = osOptPendBlocking ∨ opt = osOptPendNonBlocking) then return refuse .optInvalid
        else
          let sem ← sem o
          if sem.type ≠ .sem then return refuse .objType
          else semPendOf cfg o pendData timeout opt

/-- `OSSemPend` behind `OSSched`. -/
def semPendResult (pSem : ℕ) : Kernel Ret := do
  let pTcb ← cur
  let tcb ← tcb pTcb
  let sem ← sem pSem
  match tcb.pendStatus with
  | .ok => return ⟨.none, sem.ctr.toNat, some tcb.ts⟩
  | .abort => return ⟨.pendAbort, sem.ctr.toNat, some tcb.ts⟩
  | .timeout => return ⟨.timeout, sem.ctr.toNat, some 0⟩

/-- The loop of `OSSemPendAbort`, which takes a step for each task that waits. -/
def semPendAbortLoop (o ts : ℕ) (opt : BitVec 16) : ℕ → ℕ → Kernel ℕ
  | fuel, nbrTasks => do
      let n ← ask (.pendEntries o)
      if n = 0 then return nbrTasks
      else
        match fuel with
        | 0 => require none
        | fuel + 1 => do
            let head ← ask (.pendHead o)
            let d ← require head
            let e ← pendData d
            osPendAbort (some o) e.tcbPtr ts
            if opt ≠ osOptPendAbortAll then return nbrTasks + 1
            else semPendAbortLoop o ts opt fuel (nbrTasks + 1)

/-- `OSSemPendAbort`, from `CPU_CRITICAL_ENTER()` on. -/
def semPendAbort (o : ℕ) (opt : BitVec 16) (ts : ℕ) : Kernel Outcome := do
  let n ← ask (.pendEntries o)
  if n = 0 then return refuse .pendAbortNone
  else
    let nbrTasks ← semPendAbortLoop o ts opt n 0
    return schedUnless opt ⟨.none, nbrTasks, none⟩

/-- `OSSemPendAbort` -/
def osSemPendAbort (pSem : Ptr) (opt : BitVec 16) (ts : ℕ) : Kernel Outcome := do
  let s ← get
  if 0 < s.osIntNestingCtr then return refuse .pendAbortIsr
  else
    match pSem with
    | none => return refuse .objPtrNull
    | some o => do
        if ¬ (opt = osOptPendAbort1 ∨ opt = osOptPendAbortAll
            ∨ opt = osOptPendAbort1 ||| osOptPostNoSched
            ∨ opt = osOptPendAbortAll ||| osOptPostNoSched) then return refuse .optInvalid
        else
          let sem ← sem o
          if sem.type ≠ .sem then return refuse .objType
          else semPendAbort o opt ts

/-- The loop of `OS_SemPost`. -/
def semPostLoop (o ts : ℕ) : ℕ → Ptr → Kernel Unit
  | 0, _ => return
  | cnt + 1, pPendData => do
      let d ← require pPendData
      let e ← pendData d
      let next ← ask (.pendNext d)
      osPost (some o) e.tcbPtr ts
      semPostLoop o ts cnt next

/-- `OS_SemPost` -/
def semPost (o : ℕ) (opt : BitVec 16) (ts : ℕ) : Kernel Outcome := do
  let n ← ask (.pendEntries o)
  if n = 0 then
    let sem ← sem o
    if sem.ctr = BitVec.allOnes 32 then return refuse .semOvf
    else
      modifySem o fun x => { x with ctr := x.ctr + 1, ts := ts }
      return .done ⟨.none, (sem.ctr + 1).toNat, none⟩
  else
    let head ← ask (.pendHead o)
    semPostLoop o ts (if opt &&& osOptPostAll ≠ 0 then n else 1) head
    let sem ← sem o
    return schedUnless opt ⟨.none, sem.ctr.toNat, none⟩

/-- `OSSemPost` -/
def osSemPost (pSem : Ptr) (opt : BitVec 16) (ts : ℕ) : Kernel Outcome :=
  match pSem with
  | none => return refuse .objPtrNull
  | some o => do
      if ¬ (opt = osOptPost1 ∨ opt = osOptPostAll ∨ opt = osOptPost1 ||| osOptPostNoSched
          ∨ opt = osOptPostAll ||| osOptPostNoSched) then return refuse .optInvalid
      else
        let sem ← sem o
        if sem.type ≠ .sem then return refuse .objType
        else semPost o opt ts

/-- `OSSemSet` -/
def osSemSet (pSem : Ptr) (cnt : SemCtr) : Kernel Outcome := do
  let s ← get
  if 0 < s.osIntNestingCtr then return refuse .setIsr
  else
    match pSem with
    | none => return refuse .objPtrNull
    | some o => do
        let sem ← sem o
        if sem.type ≠ .sem then return refuse .objType
        else
          let n ← ask (.pendEntries o)
          if sem.ctr > 0 ∨ n = 0 then
            modifySem o fun x => { x with ctr := cnt }
            return .done returned
          else return refuse .taskWaiting

/-- `OS_TaskInitTCB`, the fields the model has. -/
def osTaskInitTcb : OsTcb where
  prio := cfg.prioMax
  taskState := .rdy
  pendOn := .nothing
  pendStatus := .ok
  pendDataTblPtr := none
  pendDataTblEntries := 0
  semCtr := 0
  ts := 0
  tickCtrPrev := osTickThInit
  tickCtrMatch := 0
  tickSpokePtr := none
  timeQuanta := 0
  timeQuantaCtr := 0
  suspendCtr := 0

/-- `OSTaskCreate`, from `OS_CRITICAL_ENTER()` on; the fields of the `OS_TCB` are there since the
call of `OS_TaskInitTCB`, but for the others the task begins here. -/
def taskCreate (pTcb prio : ℕ) (timeQuanta timeQuantaCtr : Tick) : Kernel Outcome := do
  modify fun s => { s with tcb := Function.update s.tcb pTcb (some { osTaskInitTcb cfg with
    prio := prio
    timeQuanta := timeQuanta
    timeQuantaCtr := timeQuantaCtr }) }
  ask (.prioInsertTail prio pTcb)
  let s ← get
  if s.osRunning = false then return .done returned
  else return .sched (.ret returned)

/-- `OSTaskCreate`, without what it keeps for the processor port and the application. -/
def osTaskCreate (pTcb pTask : Ptr) (prio : ℕ) (pStkBase : Ptr) (stkLimit stkSize : ℕ)
    (timeQuanta : Tick) : Kernel Outcome := do
  let s ← get
  if 0 < s.osIntNestingCtr then return refuse .taskCreateIsr
  else
    match pTcb with
    | none => return refuse .tcbInvalid
    | some t =>
        if pTask = none then return refuse .taskInvalid
        else if pStkBase = none then return refuse .stkInvalid
        else if stkSize < cfg.stkSizeMin then return refuse .stkSizeInvalid
        else if stkSize ≤ stkLimit then return refuse .stkLimitInvalid
        else if cfg.prioMax ≤ prio then return refuse .prioInvalid
        else if prio = cfg.prioMax - 1 ∧ t ≠ cfg.osIdleTaskTcb then return refuse .prioInvalid
        else
          return .more (.taskCreate t prio timeQuanta
            (if timeQuanta = 0 then s.osSchedRoundRobinDfltTimeQuanta else timeQuanta))

/-- `OSTaskSemPend` -/
def osTaskSemPend (timeout : Tick) (opt : BitVec 16) : Kernel Outcome := do
  let s ← get
  if 0 < s.osIntNestingCtr then return refuse .pendIsr
  else if ¬ (opt = osOptPendBlocking ∨ opt = osOptPendNonBlocking) then return refuse .optInvalid
  else
    let pTcb ← cur
    let tcb ← tcb pTcb
    if tcb.semCtr > 0 then
      modifyTcb pTcb fun x => { x with semCtr := x.semCtr - 1 }
      return .done ⟨.none, (tcb.semCtr - 1).toNat, some tcb.ts⟩
    else if opt &&& osOptPendNonBlocking ≠ 0 then return .done ⟨.pendWouldBlock, 0, some 0⟩
    else if 0 < s.osSchedLockNestingCtr then return .done ⟨.schedLocked, 0, some 0⟩
    else
      osPend cfg none none .taskSem timeout
      return .sched .taskSemPend

/-- `OSTaskSemPend` behind `OSSched`. -/
def taskSemPendResult : Kernel Ret := do
  let pTcb ← cur
  let tcb ← tcb pTcb
  match tcb.pendStatus with
  | .ok => return ⟨.none, tcb.semCtr.toNat, some tcb.ts⟩
  | .abort => return ⟨.pendAbort, tcb.semCtr.toNat, some tcb.ts⟩
  | .timeout => return ⟨.timeout, tcb.semCtr.toNat, some 0⟩

/-- `OSTaskSemPendAbort`, from `OS_CRITICAL_ENTER()` on: what the task waits for is not looked at
again. -/
def taskSemPendAbort (pTcb : ℕ) (opt : BitVec 16) (ts : ℕ) : Kernel Outcome := do
  osPendAbort none pTcb ts
  return schedUnless opt ⟨.none, 1, none⟩

/-- `OSTaskSemPendAbort`, up to `CPU_CRITICAL_EXIT()`. -/
def osTaskSemPendAbort (pTcb : Ptr) (opt : BitVec 16) (ts : ℕ) : Kernel Outcome := do
  let s ← get
  if 0 < s.osIntNestingCtr then return refuse .pendAbortIsr
  else if ¬ (opt = osOptPostNone ∨ opt = osOptPostNoSched) then return refuse .optInvalid
  else
    match pTcb with
    | none => return refuse .pendAbortSelf
    | some t =>
        if some t = s.osTcbCurPtr then return refuse .pendAbortSelf
        else
          let tcb ← tcb t
          if tcb.pendOn ≠ .taskSem then return refuse .pendAbortNone
          else return .more (.taskSemPendAbort t opt ts)

/-- `OS_TaskSemPost`, where the task does not wait for its own semaphore. -/
def taskSemSignal (pTcb : ℕ) : Kernel Outcome := do
  let tcb ← tcb pTcb
  if tcb.semCtr = BitVec.allOnes 32 then return refuse .semOvf
  else
    modifyTcb pTcb fun x => { x with semCtr := x.semCtr + 1 }
    return .done ⟨.none, (tcb.semCtr + 1).toNat, none⟩

/-- `OS_TaskSemPost` -/
def taskSemPost (pTcb : ℕ) (opt : BitVec 16) (ts : ℕ) : Kernel Outcome := do
  modifyTcb pTcb fun x => x.stamp ts
  let tcb ← tcb pTcb
  match tcb.taskState with
  | .rdy | .dly | .suspended | .dlySuspended => taskSemSignal pTcb
  | .pend | .pendTimeout | .pendSuspended | .pendTimeoutSuspended =>
      if tcb.pendOn = .taskSem then do
        osPost none pTcb ts
        return schedUnless opt ⟨.none, tcb.semCtr.toNat, none⟩
      else taskSemSignal pTcb

/-- `OSTaskSemPost` -/
def osTaskSemPost (pTcb : Ptr) (opt : BitVec 16) (ts : ℕ) : Kernel Outcome := do
  if ¬ (opt = osOptPostNone ∨ opt = osOptPostNoSched) then return refuse .optInvalid
  else
    let s ← get
    let t ← require (pTcb.or s.osTcbCurPtr)
    taskSemPost t opt ts

/-- `OSTaskSemSet` -/
def osTaskSemSet (pTcb : Ptr) (cnt : SemCtr) : Kernel Outcome := do
  let s ← get
  if 0 < s.osIntNestingCtr then return refuse .setIsr
  else
    let t ← require (pTcb.or s.osTcbCurPtr)
    let tcb ← tcb t
    modifyTcb t fun x => { x with semCtr := cnt }
    return .done ⟨.none, tcb.semCtr.toNat, none⟩

/-- `OS_TaskSuspend`, the states. -/
def taskSuspend (pTcb : ℕ) : Kernel Outcome := do
  let tcb ← tcb pTcb
  match tcb.taskState with
  | .rdy => do
      modifyTcb pTcb fun x => { x with taskState := .suspended, suspendCtr := 1 }
      osRdyListRemoveOf pTcb
  | .dly => modifyTcb pTcb fun x => { x with taskState := .dlySuspended, suspendCtr := 1 }
  | .pend => modifyTcb pTcb fun x => { x with taskState := .pendSuspended, suspendCtr := 1 }
  | .pendTimeout =>
      modifyTcb pTcb fun x => { x with taskState := .pendTimeoutSuspended, suspendCtr := 1 }
  | .suspended | .dlySuspended | .pendSuspended | .pendTimeoutSuspended =>
      modifyTcb pTcb fun x => { x with suspendCtr := x.suspendCtr + 1 }
  return .sched (.ret returned)

/-- `OSTaskSuspend` and `OS_TaskSuspend` -/
def osTaskSuspend (pTcb : Ptr) : Kernel Outcome := do
  let s ← get
  if 0 < s.osIntNestingCtr then return refuse .taskSuspendIsr
  else if pTcb = some cfg.osIdleTaskTcb then return refuse .taskSuspendIdle
  else
    let t ← require (pTcb.or s.osTcbCurPtr)
    if some t = s.osTcbCurPtr ∧ 0 < s.osSchedLockNestingCtr then return refuse .schedLocked
    else taskSuspend t

/-- `OS_TaskResume`, a task that is suspended: `taskState` is its state without the suspension. -/
def taskUnsuspend (pTcb : ℕ) (taskState : TaskState) : Kernel Unit :=
  modifyTcb pTcb fun x => { x with
    suspendCtr := x.suspendCtr - 1
    taskState := if x.suspendCtr - 1 = 0 then taskState else x.taskState }

/-- `OS_TaskResume` -/
def taskResume (pTcb : ℕ) : Kernel Outcome := do
  let tcb ← tcb pTcb
  match tcb.taskState with
  | .rdy | .dly | .pend | .pendTimeout => return .sched (.ret ⟨.taskNotSuspended, 0, none⟩)
  | .suspended => do
      taskUnsuspend pTcb .rdy
      if tcb.suspendCtr - 1 = 0 then
        osTaskRdy pTcb
        return .sched (.ret returned)
      else return .sched (.ret returned)
  | .dlySuspended => do
      taskUnsuspend pTcb .dly
      return .sched (.ret returned)
  | .pendSuspended => do
      taskUnsuspend pTcb .pend
      return .sched (.ret returned)
  | .pendTimeoutSuspended => do
      taskUnsuspend pTcb .pendTimeout
      return .sched (.ret returned)

/-- `OSTaskResume` -/
def osTaskResume (pTcb : Ptr) : Kernel Outcome := do
  let s ← get
  if 0 < s.osIntNestingCtr then return refuse .taskResumeIsr
  else
    match pTcb with
    | none => return refuse .taskResumeSelf
    | some t => if some t = s.osTcbCurPtr then return refuse .taskResumeSelf else taskResume t

/-- `OSTaskTimeQuantaSet` -/
def osTaskTimeQuantaSet (pTcb : Ptr) (timeQuanta : Tick) : Kernel Outcome := do
  let s ← get
  if 0 < s.osIntNestingCtr then return refuse .setIsr
  else
    let t ← require (pTcb.or s.osTcbCurPtr)
    let quanta := if timeQuanta = 0 then s.osSchedRoundRobinDfltTimeQuanta else timeQuanta
    modifyTcb t fun x => { x with
      timeQuanta := quanta
      timeQuantaCtr := if quanta > x.timeQuantaCtr then quanta else x.timeQuantaCtr }
    return .done returned

/-- `OSTimeTick`, up to the call of `OS_SchedRoundRobin`.  It is called in an interrupt, where the
`OSSched` of `OSTaskSemPost` does nothing; `tsTick` and `tsTmr` are the time stamps of its posts. -/
def osTimeTick (tsTick tsTmr : ℕ) : Kernel Outcome := do
  let _ ← osTaskSemPost (some cfg.osTickTaskTcb) osOptPostNone tsTick
  return .more (.tickRoundRobin tsTmr)

/-- `OS_SchedRoundRobin(&OSRdyList[OSPrioCur])`, up to `CPU_CRITICAL_ENTER()`. -/
def tickRoundRobin (ts : ℕ) : Kernel Outcome := do
  let s ← get
  if s.osSchedRoundRobinEn = false then return .more (.tickTmrRead ts)
  else return .more (.tickRotate s.osPrioCur ts)

/-- A part of a service, up to the place where an interrupt can come in again. -/
def Part.run : Part → Kernel Outcome
  | .roundRobinYield => Ucos.roundRobinYield
  | .taskCreate pTcb prio timeQuanta timeQuantaCtr =>
      Ucos.taskCreate cfg pTcb prio timeQuanta timeQuantaCtr
  | .taskSemPendAbort pTcb opt ts => Ucos.taskSemPendAbort pTcb opt ts
  | .tickRoundRobin ts => Ucos.tickRoundRobin ts
  | .tickRotate prio ts => do
      osSchedRoundRobin cfg prio
      return .more (.tickTmrRead ts)
  | .tickTmrRead ts => do
      let s ← get
      return .more (.tickTmrWrite (s.osTmrUpdateCtr - 1) ts)
  | .tickTmrWrite osTmrUpdateCtr ts => do
      modify fun s => { s with osTmrUpdateCtr := osTmrUpdateCtr }
      return .more (.tickTmrTest ts)
  | .tickTmrTest ts => do
      let s ← get
      if s.osTmrUpdateCtr = 0 then return .more (.tickTmrLoad ts) else return .done returned
  | .tickTmrLoad ts => do
      modify fun s => { s with osTmrUpdateCtr := cfg.tmrUpdateCnt }
      return .more (.tickTmrPost ts)
  | .tickTmrPost ts => do
      let _ ← osTaskSemPost (some cfg.osTmrTaskTcb) osOptPostNone ts
      return .done returned

/-- What a service does when its task runs again. -/
def Cont.run : Cont → Kernel Ret
  | .ret r => return r
  | .semPend pSem => semPendResult pSem
  | .taskSemPend => taskSemPendResult

end Wgs.Ucos
