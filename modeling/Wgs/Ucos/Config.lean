import Mathlib.Tactic

/-!
`Open-source/Micrium/Software/uCOS-III`: the configuration of the kernel.

The kernel is modelled as `Cfg/Template/os_cfg.h` configures it: posts from an interrupt are made at
once (`OS_CFG_ISR_POST_DEFERRED_EN` is 0), arguments, object types and calls from interrupts are
checked, several objects can be waited for.  What an application chooses, or the processor port
provides, are the fields of `Config`; they carry what the sources demand of them.
-/

namespace Wgs.Ucos

/-- The values of an `OS_ERR` that the functions of the model set. -/
inductive OsErr where
  | none
  | createIsr
  | lockNestingOvf
  | memCreateIsr
  | memFull
  | memInvalidBlks
  | memInvalidPAddr
  | memInvalidPBlk
  | memInvalidSize
  | memNoFreeBlks
  | msgPoolEmpty
  | msgPoolNullPtr
  | objPtrNull
  | objType
  | optInvalid
  | osNotRunning
  | osRunning
  | pendAbort
  | pendAbortIsr
  | pendAbortNone
  | pendAbortSelf
  | pendIsr
  | pendWouldBlock
  | prioInvalid
  | qEmpty
  | qMax
  | roundRobin1
  | roundRobinDisabled
  | schedLockIsr
  | schedLocked
  | schedNotLocked
  | schedUnlockIsr
  | semOvf
  | setIsr
  | stkInvalid
  | stkLimitInvalid
  | stkSizeInvalid
  | taskCreateIsr
  | taskInvalid
  | taskNotSuspended
  | taskResumeIsr
  | taskResumeSelf
  | taskSuspendIdle
  | taskSuspendIsr
  | taskWaiting
  | tcbInvalid
  | timeDlyIsr
  | timeInvalidHours
  | timeInvalidMilliseconds
  | timeInvalidMinutes
  | timeInvalidSeconds
  | timeZeroDly
  | timeout
  | yieldIsr
  deriving DecidableEq

/-- `n + k` in an `OS_OBJ_QTY` or an `OS_MSG_QTY`. -/
def qtyAdd (n k : ℕ) : ℕ := (n + k) % 65536

/-- `n - k` in an `OS_OBJ_QTY` or an `OS_MSG_QTY`. -/
def qtySub (n k : ℕ) : ℕ := (n + (65536 - k)) % 65536

/-- The constants of a configuration and the processor port. -/
structure Config where
  /-- `DEF_INT_CPU_NBR_BITS`, the bits of a `CPU_DATA`. -/
  wordBits : ℕ
  wordBits_eq : ∃ e, wordBits = 2 ^ e
  /-- `CPU_CntLeadZeros` of the processor port. -/
  cntLeadZeros : BitVec wordBits → ℕ
  cntLeadZeros_eq : ∀ x, cntLeadZeros x = x.clz.toNat
  /-- `sizeof(void *)` -/
  ptrSize : ℕ
  ptrSize_eq : ∃ e, ptrSize = 2 ^ e
  /-- `OS_CFG_PRIO_MAX`, which `os.h` checks; an `OS_PRIO` has eight bits. -/
  prioMax : ℕ
  eight_le_prioMax : 8 ≤ prioMax
  prioMax_le : prioMax ≤ 256
  /-- `OSCfg_TickWheelSize`, the number of cells of `OSCfg_TickWheel`. -/
  tickWheelSize : ℕ
  tickWheelSize_pos : 0 < tickWheelSize
  tickWheelSize_lt : tickWheelSize < 65536
  /-- `OSCfg_TickRate_Hz`, for which the template asks for 10 to 1000. -/
  tickRateHz : ℕ
  tickRateHz_pos : 0 < tickRateHz
  tickRateHz_lt : tickRateHz < 4294967296
  /-- `OSCfg_StkSizeMin` -/
  stkSizeMin : ℕ
  /-- `OSTmrUpdateCnt` -/
  tmrUpdateCnt : BitVec 32
  /-- The addresses of the kernel's own `OS_TCB`s. -/
  osIdleTaskTcb : ℕ
  osTickTaskTcb : ℕ
  osTmrTaskTcb : ℕ
  /-- What `OS_TASK_SW` and `OSIntCtxSw` of the processor port make of `OSPrioHighRdy` and
  `OSTCBHighRdyPtr`: the new `OSPrioCur` and `OSTCBCurPtr`. -/
  osCtxSw : ℕ → Option ℕ → ℕ × Option ℕ
  osCtxSw_eq : ∀ p t, osCtxSw p t = (p, t)

namespace Config

/-- The configuration of the templates on a processor of 32 bits. -/
def template : Config where
  wordBits := 32
  wordBits_eq := ⟨5, rfl⟩
  cntLeadZeros x := x.clz.toNat
  cntLeadZeros_eq _ := rfl
  ptrSize := 4
  ptrSize_eq := ⟨2, rfl⟩
  prioMax := 32
  eight_le_prioMax := by decide
  prioMax_le := by decide
  tickWheelSize := 17
  tickWheelSize_pos := by decide
  tickWheelSize_lt := by decide
  tickRateHz := 1000
  tickRateHz_pos := by decide
  tickRateHz_lt := by decide
  stkSizeMin := 64
  tmrUpdateCnt := 100
  osIdleTaskTcb := 1
  osTickTaskTcb := 2
  osTmrTaskTcb := 3
  osCtxSw p t := (p, t)
  osCtxSw_eq _ _ := rfl

variable (cfg : Config)

/-- `OS_PRIO_TBL_SIZE` -/
def prioTblSize : ℕ := (cfg.prioMax - 1) / cfg.wordBits + 1

lemma wordBits_pos : 0 < cfg.wordBits := by
  obtain ⟨e, he⟩ := cfg.wordBits_eq
  exact he ▸ Nat.two_pow_pos e

/-- `prio & (DEF_INT_CPU_NBR_BITS - 1u)` -/
lemma and_wordBits_sub_one (p : ℕ) : p &&& (cfg.wordBits - 1) = p % cfg.wordBits := by
  obtain ⟨e, he⟩ := cfg.wordBits_eq
  rw [he, Nat.and_two_pow_sub_one_eq_mod]

/-- Every priority has a bit in the table. -/
lemma lt_prioTblSize_mul {p : ℕ} (hp : p < cfg.prioMax) :
    p < cfg.prioTblSize * cfg.wordBits := by
  have hdiv := Nat.div_add_mod' (cfg.prioMax - 1) cfg.wordBits
  have hmod := Nat.mod_lt (cfg.prioMax - 1) cfg.wordBits_pos
  rw [prioTblSize, Nat.add_mul, Nat.one_mul]
  omega

end Config

end Wgs.Ucos
