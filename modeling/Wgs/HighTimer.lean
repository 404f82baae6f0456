import Wgs.Foundation.MachineInt
import Wgs.Foundation.Runs

/-!
`DEV-module/high-timer/high-timer.c`: how late a high resolution timer is.

Each time the timer has gone off, a work function starts it again, and every 4000th time it reports
by how much the interval was exceeded on average.  For that it subtracts the time that 4000
intervals ought to take, a product of `unsigned int`s, from the time that has passed, an
`unsigned long long`.  The difference is right as long as the product is less than `2³²`
nanoseconds, which it is for intervals up to 1073 microseconds (`reportsDelay_iff`); the one that
the module comes with has 5000.  In a run of the module the time that has passed is that since the
last report, 4000 calls ago (`tracks_of_run`), until the count starts again at 0.

The kernel is compiled with signed arithmetic that wraps around.
-/

namespace Wgs.HighTimer

open Foundation

/-! ### The program -/

structure Timespec where
  tvSec : ℤ
  tvNsec : ℤ
  deriving DecidableEq

/-- `#define COUNT_INTERVAL 4000` -/
def countInterval : ℤ := 4000

/-- `diff_tv`, from `start` to `stop`. -/
def diffTv (start stop : Timespec) : ℤ :=
  toUInt64 (toInt64 (toInt64 (toInt64 (stop.tvSec - start.tvSec) * 1000000000)
    + toInt64 (stop.tvNsec - start.tvNsec)))

/-- The static variables that `wq_func_hrtimer` changes. -/
structure Timer where
  /-- The arguments of the last `ktime_set`. -/
  ktime : ℤ × ℤ
  uptimeLast : Timespec
  count : ℤ
  deriving DecidableEq

/-- What the functions do outside of the module. -/
inductive Event where
  /-- `hrtimer_start`, with these seconds and nanoseconds. -/
  | start (secs nsecs : ℤ)
  /-- The line `hrtimer: sec, ns` at the start of the module. -/
  | installed (sec nsec : ℤ)
  /-- The line `hrtimer: sec, ns, interval_delay`. -/
  | report (sec nsec intervalDelay : ℤ)
  deriving DecidableEq

/-- `ktime_set( interval/1000000, (interval%1000000)*1000 )` -/
def intervalKtime (interval : ℤ) : ℤ × ℤ :=
  (interval / 1000000, toUInt32 (interval % 1000000 * 1000))

/-- `module_hrtimer_init`, at the time `uptime`. -/
def moduleHrtimerInit (interval : ℤ) (uptime : Timespec) : Timer × List Event :=
  let ktime := intervalKtime interval
  (⟨ktime, uptime, 0⟩,
    [.start ktime.1 ktime.2, .installed (toUInt64 uptime.tvSec) (toUInt64 uptime.tvNsec)])

/-- `interval_delay` -/
def intervalDelay (interval : ℤ) (uptimeLast uptime : Timespec) : ℤ :=
  toUInt64 (toUInt64 (diffTv uptimeLast uptime
    - toUInt32 (toUInt32 (interval * 1000) * countInterval))) / countInterval

/-- `wq_func_hrtimer`, at the time `uptime`. -/
def wqFuncHrtimer (interval : ℤ) (uptime : Timespec) (s : Timer) : Timer × List Event :=
  let ktime := intervalKtime interval
  let start := Event.start ktime.1 ktime.2
  if s.count % countInterval = 0 then
    (⟨ktime, uptime, toUInt32 (s.count + 1)⟩,
      [start, .report (toUInt64 uptime.tvSec) (toUInt64 uptime.tvNsec)
        (intervalDelay interval s.uptimeLast uptime)])
  else (⟨ktime, s.uptimeLast, toUInt32 (s.count + 1)⟩, [start])

/-- The time that has passed, in nanoseconds. -/
def elapsed (start stop : Timespec) : ℤ :=
  (stop.tvSec - start.tvSec) * 1000000000 + (stop.tvNsec - start.tvNsec)

/-- The time that 4000 intervals ought to take, in nanoseconds. -/
def span (interval : ℤ) : ℤ := interval * 1000 * countInterval

/-- The delay of one interval is reported, as an integer. -/
def ReportsDelay (interval : ℤ) (uptime : Timespec) (s : Timer) : Prop :=
  ∃ sec nsec, Event.report sec nsec ((elapsed s.uptimeLast uptime - span interval) / countInterval)
    ∈ (wqFuncHrtimer interval uptime s).2

/-! ### The difference -/

variable {interval x y q : ℤ} {uptime start stop : Timespec} {s : Timer}

/-- The time that has passed is counted modulo `2⁶⁴`. -/
lemma diffTv_eq (start stop : Timespec) : diffTv start stop = toUInt64 (elapsed start stop) := by
  simp only [diffTv, elapsed, toInt64, toUInt64]
  omega

/-- The product loses what is above `2³²`. -/
lemma span_eq (interval : ℤ) : toUInt32 (toUInt32 (interval * 1000) * countInterval)
    = toUInt32 (span interval) := by
  simp only [span, countInterval, toUInt32]
  omega

lemma intervalDelay_eq (interval : ℤ) (start stop : Timespec) :
    intervalDelay interval start stop
      = toUInt64 (elapsed start stop - toUInt32 (span interval)) / countInterval := by
  have hsub (x y : ℤ) : toUInt64 (toUInt64 (toUInt64 x - y)) = toUInt64 (x - y) := by
    simp only [toUInt64]
    omega
  rw [intervalDelay, diffTv_eq, span_eq, hsub]

/-- **When the difference is right**: nothing is lost of the product, and nothing of the result. -/
lemma toUInt64_sub_div_iff (hx : 0 ≤ x) (hxy : x ≤ y) (hsmall : x < 2 ^ 32 * 2 ^ 32) :
    toUInt64 (y - toUInt32 x) / countInterval = (y - x) / countInterval
      ↔ x < 2 ^ 32 ∧ y - x < 2 ^ 64 := by
  -- what is lost of the product comes back as a multiple of `2³²`, less than `2⁶⁴`
  obtain ⟨q, hq⟩ : ∃ q, q = x / 2 ^ 32 := ⟨_, rfl⟩
  have hlost : y - toUInt32 x = y - x + 2 ^ 32 * q := by
    rw [toUInt32]
    omega
  have hq₀ : 0 ≤ q ∧ q < 2 ^ 32 := by omega
  have hnone : q = 0 ↔ x < 2 ^ 32 := by omega
  rw [hlost, ← hnone, toUInt64, countInterval]
  omega

/-! ### The report -/

/-- At a multiple of 4000, the delay is what the line says. -/
lemma reportsDelay_iff_intervalDelay (hcount : s.count % countInterval = 0) :
    ReportsDelay interval uptime s
      ↔ intervalDelay interval s.uptimeLast uptime
        = (elapsed s.uptimeLast uptime - span interval) / countInterval := by
  simp only [ReportsDelay, wqFuncHrtimer, if_pos hcount, List.mem_cons, List.not_mem_nil, or_false,
    reduceCtorEq, false_or, Event.report.injEq]
  constructor
  · rintro ⟨sec, nsec, -, -, hdelay⟩
    exact hdelay.symm
  · intro hdelay
    exact ⟨_, _, rfl, rfl, hdelay.symm⟩

/-- The delay is what it should be for intervals up to 1073 microseconds, and where an
`unsigned long` can hold it. -/
lemma intervalDelay_eq_iff (hinterval : IsUInt32 interval)
    (hlong : span interval ≤ elapsed start stop) :
    intervalDelay interval start stop = (elapsed start stop - span interval) / countInterval
      ↔ interval ≤ 1073 ∧ elapsed start stop - span interval < 2 ^ 64 := by
  obtain ⟨hnonneg, hlt⟩ := hinterval
  have hspan : span interval = interval * 4000000 := by
    rw [span, countInterval]
    ring
  have hsmall : span interval < 2 ^ 32 ↔ interval ≤ 1073 := by
    rw [hspan]
    omega
  rw [intervalDelay_eq, toUInt64_sub_div_iff (by omega) hlong (by omega), hsmall]

/-- **When the delay is reported**: for intervals up to 1073 microseconds, and delays that an
`unsigned long` can hold. -/
theorem reportsDelay_iff (hinterval : IsUInt32 interval) (hcount : s.count % countInterval = 0)
    (hlong : span interval ≤ elapsed s.uptimeLast uptime) :
    ReportsDelay interval uptime s
      ↔ interval ≤ 1073 ∧ elapsed s.uptimeLast uptime - span interval < 2 ^ 64 := by
  rw [reportsDelay_iff_intervalDelay hcount]
  exact intervalDelay_eq_iff hinterval hlong

/-- An interval of one millisecond that is late by four nanoseconds each time. -/
theorem reportsDelay_iff_millisecond :
    ReportsDelay 1000 ⟨14, 16000⟩ ⟨(0, 1000000), ⟨10, 0⟩, 8000⟩ :=
  (reportsDelay_iff ⟨by decide, by decide⟩ rfl (by decide)).mpr ⟨by decide, by decide⟩

/-- **The interval of the module**, right on time: more than four milliseconds are reported. -/
theorem reports_four_milliseconds :
    (wqFuncHrtimer 5000 ⟨30, 0⟩ ⟨(0, 5000000), ⟨10, 0⟩, 4000⟩).2
        = [.start 0 5000000, .report 30 0 4294967]
      ∧ elapsed ⟨10, 0⟩ ⟨30, 0⟩ = span 5000
      ∧ ¬ ReportsDelay 5000 ⟨30, 0⟩ ⟨(0, 5000000), ⟨10, 0⟩, 4000⟩ := by
  refine ⟨by decide, by decide, ?_⟩
  rw [reportsDelay_iff_intervalDelay rfl]
  decide

/-! ### Runs -/

variable {uptime₀ : Timespec} {uptimes : List Timespec}

/-- One call of the work function. -/
def Called (interval : ℤ) (s : Timer) (uptime : Timespec) (s' : Timer) : Prop :=
  s' = (wqFuncHrtimer interval uptime s).1

/-- After calls at these times, the count and the time of the last report. -/
def Tracks (uptime₀ : Timespec) (uptimes : List Timespec) (s : Timer) : Prop :=
  s.count = uptimes.length
    ∧ s.uptimeLast = (uptimes[(uptimes.length - 1) / 4000 * 4000]?).getD uptime₀

lemma Tracks.step (h : Tracks uptime₀ uptimes s) (hlen : uptimes.length + 1 < 4294967296) :
    Tracks uptime₀ (uptimes ++ [uptime]) (wqFuncHrtimer interval uptime s).1 := by
  obtain ⟨hcount, hlast⟩ := h
  have hnext : toUInt32 (s.count + 1) = uptimes.length + 1 := by
    rw [hcount]
    exact toUInt32_of_isUInt32 ⟨by omega, by omega⟩
  rw [Tracks, List.length_append, List.length_singleton, Nat.cast_succ, Nat.add_sub_cancel]
  by_cases hreport : s.count % countInterval = 0
  · have hplace : uptimes.length / 4000 * 4000 = uptimes.length := by
      rw [hcount, countInterval] at hreport
      omega
    rw [wqFuncHrtimer, if_pos hreport, hplace, List.getElem?_append_right le_rfl, Nat.sub_self]
    exact ⟨hnext, rfl⟩
  · have hplace : uptimes.length / 4000 * 4000 = (uptimes.length - 1) / 4000 * 4000
        ∧ uptimes.length / 4000 * 4000 < uptimes.length := by
      rw [hcount, countInterval] at hreport
      omega
    rw [wqFuncHrtimer, if_neg hreport, List.getElem?_append_left hplace.2, hplace.1]
    exact ⟨hnext, hlast⟩

/-- **In every run** the last report is the one at the last multiple of 4000. -/
lemma tracks_of_run
    (h : Reaches (Called interval) (moduleHrtimerInit interval uptime₀).1 uptimes s)
    (hlen : uptimes.length < 4294967296) : Tracks uptime₀ uptimes s := by
  refine h.induct (P := fun uptimes s => uptimes.length < 4294967296 → Tracks uptime₀ uptimes s)
    (fun _ => ⟨rfl, rfl⟩) (fun uptimes s uptime s' _ ih hcall hlen => ?_) hlen
  rw [List.length_append, List.length_singleton] at hlen
  obtain rfl : s' = (wqFuncHrtimer interval uptime s).1 := hcall
  exact (ih (by omega)).step hlen

/-- **The reports of a run**: every 4000th call reports the delay since the last one that did. -/
theorem run_reports_iff {k : ℕ} (hinterval : IsUInt32 interval)
    (h : Reaches (Called interval) (moduleHrtimerInit interval uptime₀).1 uptimes s)
    (hlen : uptimes.length < 4294967296) (hk : uptimes.length = 4000 * (k + 1))
    (hstart : uptimes[4000 * k]? = some start) (hlong : span interval ≤ elapsed start uptime) :
    ReportsDelay interval uptime s
      ↔ interval ≤ 1073 ∧ elapsed start uptime - span interval < 2 ^ 64 := by
  obtain ⟨hcount, hlast⟩ := tracks_of_run h hlen
  have hplace : (uptimes.length - 1) / 4000 * 4000 = 4000 * k := by omega
  rw [hplace, hstart, Option.getD_some] at hlast
  have hreport : s.count % countInterval = 0 := by
    rw [hcount, hk, countInterval]
    omega
  rw [reportsDelay_iff_intervalDelay hreport, hlast]
  exact intervalDelay_eq_iff hinterval hlong

end Wgs.HighTimer
