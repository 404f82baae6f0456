import Wgs.Ucos.Consistency

/-!
What a service leaves.

`Leaves` is what the queues keep while a service is at work: they stay consistent, the clock and the
current task stay, no task changes its priority, a task that is delayed stays so, and only the tasks
of a given set may cease to be ready.  A task that is created is ready.  All services but one also
keep the delays in the tick wheel (`Tidy`, `Leads`): `OSTimeDly` may refuse a delay whose time is
over when the state of the task says already that it is delayed.
-/

namespace Wgs.Ucos

open Foundation Ucos.Kernel

/-- Two tasks that differ in fields which no list depends on. -/
structure OsTcb.Same (x y : OsTcb) : Prop where
  prio : y.prio = x.prio
  taskState : y.taskState = x.taskState
  pendOn : y.pendOn = x.pendOn
  pendDataTblPtr : y.pendDataTblPtr = x.pendDataTblPtr
  pendDataTblEntries : y.pendDataTblEntries = x.pendDataTblEntries
  tickSpokePtr : y.tickSpokePtr = x.tickSpokePtr
  tickCtrMatch : y.tickCtrMatch = x.tickCtrMatch

lemma OsTcb.Same.ok {x y : OsTcb} (h : OsTcb.Same x y) {cfg : Config} {space : Space}
    {pendData : Mem OsPendData} {t : ℕ} (hx : x.Ok cfg space pendData t) :
    y.Ok cfg space pendData t where
  mem := hx.mem
  prio_lt := h.prio ▸ hx.prio_lt
  pend := by rw [h.taskState, h.pendOn, hx.pend]
  free := by
    rw [h.pendOn, h.pendDataTblPtr, h.pendDataTblEntries]
    exact hx.free
  entry := by
    rw [h.pendOn, h.pendDataTblPtr, h.pendDataTblEntries]
    exact hx.entry
  spoke := by
    rw [h.tickSpokePtr, h.tickCtrMatch, h.taskState]
    exact hx.spoke
  timed := by
    rw [h.tickSpokePtr, h.taskState]
    exact hx.timed

/-- What a task keeps whatever service is called: its priority, and its delay. -/
structure OsTcb.Keeps (x y : OsTcb) : Prop where
  prio : y.prio = x.prio
  delay : x.isDelayed = true → y.isDelayed = true ∧ y.tickCtrMatch = x.tickCtrMatch

namespace OsTcb.Keeps

variable {x y z : OsTcb}

lemma refl (x : OsTcb) : Keeps x x := ⟨rfl, fun h => ⟨h, rfl⟩⟩

lemma trans (h : Keeps x y) (h' : Keeps y z) : Keeps x z where
  prio := h'.prio.trans h.prio
  delay hx := by
    obtain ⟨hy, hmatch⟩ := h.delay hx
    obtain ⟨hz, hmatch'⟩ := h'.delay hy
    exact ⟨hz, hmatch'.trans hmatch⟩

/-- A task that is not delayed may do what it likes. -/
lemma of_not_isDelayed (hprio : y.prio = x.prio) (h : x.isDelayed = false) : Keeps x y :=
  ⟨hprio, fun hx => by simp [h] at hx⟩

end OsTcb.Keeps

/-- No task loses its delay. -/
def Tidy (s s' : Queues) : Prop :=
  ∀ t y, s'.shared.tcb t = some y → y.isLost = true →
    ∃ x, s.shared.tcb t = some x ∧ x.isLost = true

/-- What the queues keep; the tasks of `V` may cease to be ready. -/
structure Leaves (cfg : Config) (space : Space) (V : Set ℕ) (s s' : Queues) : Prop where
  consistent : Consistent cfg space s'
  settled : Settled s → Settled s'
  osRunning : s'.shared.osRunning = s.shared.osRunning
  osIntNestingCtr : s'.shared.osIntNestingCtr = s.shared.osIntNestingCtr
  osPrioCur : s'.shared.osPrioCur = s.shared.osPrioCur
  osTcbCurPtr : s'.shared.osTcbCurPtr = s.shared.osTcbCurPtr
  osTickCtr : s'.shared.osTickCtr = s.shared.osTickCtr
  lock : 0 < s.shared.osIntNestingCtr →
    s'.shared.osSchedLockNestingCtr = s.shared.osSchedLockNestingCtr
  tcb : ∀ t x, s.shared.tcb t = some x → ∃ y, s'.shared.tcb t = some y ∧ OsTcb.Keeps x y
    ∧ (t ∉ V → x.isReady = true → y.isReady = true)
  created : ∀ t y, s.shared.tcb t = none → s'.shared.tcb t = some y → t ∉ V → y.isReady = true

/-- What the queues keep, where no task loses its delay either. -/
structure Leads (cfg : Config) (space : Space) (V : Set ℕ) (s s' : Queues) : Prop
    extends Leaves cfg space V s s' where
  tidy : Tidy s s'

section Leads

variable {cfg : Config} {space : Space} {V : Set ℕ} {s s' s'' : Queues} {t o d p : ℕ} {x y : OsTcb}

/-- One task changes. -/
lemma Leaves.of_setTcb (h : Consistent cfg space s') (hx : s.shared.tcb t = some x)
    (hvars : s'.shared.toOsVars = s.shared.toOsVars)
    (htcb : s'.shared.tcb = (s.setTcb t y).shared.tcb) (hkeeps : OsTcb.Keeps x y)
    (hready : t ∉ V → x.isReady = true → y.isReady = true)
    (hspoke : ∀ i, ∀ a ∈ s'.spoke i, a ≠ t → a ∈ s.spoke i)
    (hself : ∀ i, t ∈ s'.spoke i → (t ∈ s.spoke i ∧ y.tickCtrMatch = x.tickCtrMatch)
      ∨ y.tickCtrMatch ≠ s.shared.osTickCtr) :
    Leaves cfg space V s s' where
  consistent := h
  settled hsettled i a ha := by
    rw [hvars, Shared.matchOf, htcb]
    rcases eq_or_ne a t with rfl | hne
    · rw [Queues.setTcb_tcb_self, Option.map_some, ne_eq, Option.some_inj]
      rcases hself i ha with ⟨hold, hmatch⟩ | hnew
      · have hne := hsettled i a hold
        rwa [Shared.matchOf, hx, Option.map_some, ne_eq, Option.some_inj, ← hmatch] at hne
      · exact hnew
    · rw [s.setTcb_tcb_of_ne y hne]
      exact hsettled i a (hspoke i a ha hne)
  osRunning := by rw [hvars]
  osIntNestingCtr := by rw [hvars]
  osPrioCur := by rw [hvars]
  osTcbCurPtr := by rw [hvars]
  osTickCtr := by rw [hvars]
  lock _ := by rw [hvars]
  tcb u z hz := by
    rcases eq_or_ne u t with rfl | hne
    · obtain rfl := Option.some_inj.mp (hx.symm.trans hz)
      exact ⟨y, by rw [htcb, Queues.setTcb_tcb_self], hkeeps, hready⟩
    · exact ⟨z, by rw [htcb, s.setTcb_tcb_of_ne y hne, hz], .refl z, fun _ => id⟩
  created u z hnone hz := by
    have hne : u ≠ t := by
      rintro rfl
      simp [hx] at hnone
    rw [htcb, s.setTcb_tcb_of_ne y hne, hnone] at hz
    simp at hz

/-- **A task stays where it is.** -/
lemma Leaves.setTcb (h : Consistent cfg space s) (hx : s.shared.tcb t = some x)
    (hok : y.Ok cfg space s.shared.pendData t) (hready : y.isReady = x.isReady)
    (hprio : y.prio = x.prio) (hdelayed : y.isDelayed = x.isDelayed)
    (hspoke : y.tickSpokePtr = x.tickSpokePtr)
    (hmatch : x.tickSpokePtr ≠ none → y.tickCtrMatch = x.tickCtrMatch)
    (hptr : y.pendDataTblPtr = x.pendDataTblPtr) :
    Leaves cfg space V s (s.setTcb t y) := by
  refine of_setTcb (h.setTcb hx hok ?_ hprio hspoke hmatch hptr) hx rfl rfl
    ⟨hprio, fun hdelay => ⟨hdelayed.trans hdelay, hmatch (OsTcb.spoke_of_isDelayed hdelay)⟩⟩
    (fun _ hx => hready.trans hx) (fun _ _ ha _ => ha) fun i ha => .inl ⟨ha, hmatch ?_⟩
  · simp [OsTcb.readyAt, hready, hprio]
  · simp [(h.mem_spoke hx).mp ha]

namespace Leads

lemma refl (h : Consistent cfg space s) : Leads cfg space V s s where
  consistent := h
  settled := id
  osRunning := rfl
  osIntNestingCtr := rfl
  osPrioCur := rfl
  osTcbCurPtr := rfl
  osTickCtr := rfl
  lock _ := rfl
  tcb _ x hx := ⟨x, hx, .refl x, fun _ => id⟩
  created _ _ hnone hy := by simp [hnone] at hy
  tidy _ y hy hlost := ⟨y, hy, hlost⟩

lemma trans (h : Leads cfg space V s s') (h' : Leads cfg space V s' s'') :
    Leads cfg space V s s'' where
  consistent := h'.consistent
  settled := h'.settled ∘ h.settled
  osRunning := h'.osRunning.trans h.osRunning
  osIntNestingCtr := h'.osIntNestingCtr.trans h.osIntNestingCtr
  osPrioCur := h'.osPrioCur.trans h.osPrioCur
  osTcbCurPtr := h'.osTcbCurPtr.trans h.osTcbCurPtr
  osTickCtr := h'.osTickCtr.trans h.osTickCtr
  lock hnesting := (h'.lock (h.osIntNestingCtr ▸ hnesting)).trans (h.lock hnesting)
  tcb t x hx := by
    obtain ⟨y, hy, hkeeps, hready⟩ := h.tcb t x hx
    obtain ⟨z, hz, hkeeps', hready'⟩ := h'.tcb t y hy
    exact ⟨z, hz, hkeeps.trans hkeeps', fun hV hxr => hready' hV (hready hV hxr)⟩
  created t z hnone hz hV := by
    cases hy : s'.shared.tcb t with
    | none => exact h'.created t z hy hz hV
    | some y =>
        obtain ⟨w, hw, -, hready⟩ := h'.tcb t y hy
        obtain rfl := Option.some_inj.mp (hw.symm.trans hz)
        exact hready hV (h.created t y hnone hy hV)
  tidy t z hz hlost := by
    obtain ⟨y, hy, hylost⟩ := h'.tidy t z hz hlost
    exact h.tidy t y hy hylost

/-- The tasks do not change. -/
lemma of_tcb_eq (h : Consistent cfg space s') (hvars : s'.shared.toOsVars = s.shared.toOsVars)
    (htcb : s'.shared.tcb = s.shared.tcb) (hspoke : s'.spoke = s.spoke) :
    Leads cfg space V s s' where
  consistent := h
  settled hsettled i a ha := by
    rw [Shared.matchOf, htcb, hvars]
    exact hsettled i a (hspoke ▸ ha)
  osRunning := by rw [hvars]
  osIntNestingCtr := by rw [hvars]
  osPrioCur := by rw [hvars]
  osTcbCurPtr := by rw [hvars]
  osTickCtr := by rw [hvars]
  lock _ := by rw [hvars]
  tcb t x hx := ⟨x, htcb ▸ hx, .refl x, fun _ => id⟩
  created t y hnone hy := by simp [htcb, hnone] at hy
  tidy t y hy hlost := ⟨y, htcb ▸ hy, hlost⟩

/-- One task changes, and does not lose its delay. -/
lemma of_leaves (h : Leaves cfg space V s s') (hx : s.shared.tcb t = some x)
    (htcb : s'.shared.tcb = (s.setTcb t y).shared.tcb) (hlost : y.isLost = true → x.isLost = true) :
    Leads cfg space V s s' where
  toLeaves := h
  tidy u z hz hzlost := by
    rw [htcb] at hz
    rcases eq_or_ne u t with rfl | hne
    · obtain rfl := Option.some_inj.mp ((s.setTcb_tcb_self u y).symm.trans hz)
      exact ⟨x, hx, hlost hzlost⟩
    · exact ⟨z, (s.setTcb_tcb_of_ne y hne).symm.trans hz, hzlost⟩

/-- Fields are written that no list depends on. -/
lemma same (h : Consistent cfg space s) (hx : s.shared.tcb t = some x) (hy : OsTcb.Same x y) :
    Leads cfg space V s (s.setTcb t y) := by
  refine of_leaves (.setTcb h hx (hy.ok (h.tcb t x hx)) ?_ hy.prio ?_ hy.tickSpokePtr
    (fun _ => hy.tickCtrMatch) hy.pendDataTblPtr) hx rfl ?_
  · simp [OsTcb.isReady, hy.taskState, hy.tickSpokePtr]
  · simp [OsTcb.isDelayed, hy.taskState, hy.tickSpokePtr]
  · simp [OsTcb.isLost, hy.taskState, hy.tickSpokePtr]

/-- What a release leaves of the tasks and of the wheel. -/
lemma release_tcb (s : Queues) (t : ℕ) (d : Ptr) (y : OsTcb) :
    (s.release t d y).shared = (s.setTcb t y).shared
      ∧ (s.release t d y).spoke = fun i => (s.spoke i).erase t := by
  unfold Queues.release
  split_ifs <;> simp [Queues.setTcb, Queues.leaveSpoke]

/-- **A task that waits is released.** -/
lemma release (h : Consistent cfg space s) (hx : s.shared.tcb t = some x)
    (hpend : x.taskState.isPend = true) (hy : OsTcb.Freed x y) :
    Leads cfg space V s (s.release t x.pendDataTblPtr y) := by
  have hnot := OsTcb.not_isReady_of_isPend hpend
  obtain ⟨hshared, hspoke⟩ := release_tcb s t x.pendDataTblPtr y
  refine of_leaves (.of_setTcb (h.release hx hnot hy) hx (by rw [hshared]; rfl) (by rw [hshared])
    (.of_not_isDelayed hy.prio (by simp [OsTcb.isDelayed, hpend]))
    (fun _ hr => by simp [hnot] at hr) (fun i a ha _ => ?_) fun i ha => ?_) hx (by rw [hshared])
    (by simp [hy.not_isLost])
  · rw [hspoke] at ha
    exact List.mem_of_mem_erase ha
  · rw [hspoke] at ha
    exact absurd rfl ((h.spoke.nodup i).mem_erase_iff.mp ha).1

/-- **A task ceases to be ready.** -/
lemma part (h : Consistent cfg space s) (hx : s.shared.tcb t = some x) (hready : x.isReady = true)
    (hok : y.Ok cfg space s.shared.pendData t) (hnot : y.isReady = false)
    (hprio : y.prio = x.prio) (hspoke : y.tickSpokePtr = x.tickSpokePtr)
    (hptr : y.pendDataTblPtr = x.pendDataTblPtr) :
    Leads cfg space {t} s ((s.leaveRdy t).setTcb t y) := by
  have hoff := (h.tcb t x hx).spoke_of_isReady hready
  refine of_leaves (.of_setTcb (h.part hx hok hnot hprio hspoke (absurd hoff) hptr) hx rfl rfl
    (.of_not_isDelayed hprio (by simp [OsTcb.isDelayed, hoff])) (fun hV => absurd rfl hV)
    (fun _ _ ha _ => ha) fun i ha => ?_) hx rfl fun hlost => ?_
  · have hspoke := (h.mem_spoke hx).mp ha
    simp [hoff] at hspoke
  · simp [hok.isReady_of_isLost hlost] at hnot

/-- **A task that was suspended is ready now.** -/
lemma join (h : Consistent cfg space s) (hx : s.shared.tcb t = some x)
    (hstate : x.taskState = .suspended) (hy : OsTcb.Freed x y) :
    Leads cfg space V s (s.release t none y) := by
  have hnot : x.isReady = false := by simp [OsTcb.isReady, hstate]
  have hok := h.tcb t x hx
  have hfree : x.pendDataTblPtr = none := by
    refine (hok.free fun hon => ?_).1
    have hpend := hok.pend.mpr (by simp [hon])
    simp [hstate, TaskState.isPend] at hpend
  have hrelease := h.release hx hnot hy
  rw [hfree] at hrelease
  obtain ⟨hshared, hspoke⟩ := release_tcb s t none y
  refine of_leaves (.of_setTcb hrelease hx (by rw [hshared]; rfl) (by rw [hshared])
    (.of_not_isDelayed hy.prio (by simp [OsTcb.isDelayed, hstate, TaskState.isDly]))
    (fun _ hr => by simp [hnot] at hr) (fun i a ha _ => ?_) fun i ha => ?_) hx (by rw [hshared])
    (by simp [hy.not_isLost])
  · rw [hspoke] at ha
    exact List.mem_of_mem_erase ha
  · rw [hspoke] at ha
    exact absurd rfl ((h.spoke.nodup i).mem_erase_iff.mp ha).1

/-- What a task leaves of the wheel that is put into it. -/
private lemma of_enterWheel (h : Consistent cfg space s') (hx : s.shared.tcb t = some x)
    (hoff : x.tickSpokePtr = none) (hvars : s'.shared.toOsVars = s.shared.toOsVars)
    (htcb : s'.shared.tcb = (s.setTcb t y).shared.tcb) (hprio : y.prio = x.prio)
    (hspoke : s'.spoke = (s.enterWheel cfg t y.tickCtrMatch).spoke)
    (hon : y.tickSpokePtr ≠ none) (hmatch : y.tickCtrMatch ≠ s.shared.osTickCtr) :
    Leads cfg space {t} s s' := by
  refine of_leaves (.of_setTcb h hx hvars htcb
    (.of_not_isDelayed hprio (by simp [OsTcb.isDelayed, hoff])) (fun hV => absurd rfl hV)
    (fun i a ha hne => ?_) fun i _ => .inr hmatch) hx htcb (by simp [OsTcb.isLost, hon])
  rw [hspoke, Queues.enterWheel, Queues.joinSpoke] at ha
  rcases eq_or_ne i (y.tickCtrMatch.toNat % cfg.tickWheelSize) with rfl | hi
  · simp only [Function.update_self] at ha
    exact (mem_placeBehind.mp ha).resolve_left hne
  · simpa only [Function.update_of_ne hi] using ha

/-- **A task is delayed.** -/
lemma delay (h : Consistent cfg space s) (hx : s.shared.tcb t = some x) (hready : x.isReady = true)
    (hok : y.Ok cfg space s.shared.pendData t) (hnot : y.isReady = false) (hprio : y.prio = x.prio)
    (hspoke : y.tickSpokePtr = some (y.tickCtrMatch.toNat % cfg.tickWheelSize))
    (hptr : y.pendDataTblPtr = none) (hmatch : y.tickCtrMatch ≠ s.shared.osTickCtr) :
    Leads cfg space {t} s (((s.leaveRdy t).enterWheel cfg t y.tickCtrMatch).setTcb t y) :=
  of_enterWheel (h.delay hx hready hok hnot hprio hspoke hptr) hx
    ((h.tcb t x hx).spoke_of_isReady hready) rfl rfl hprio rfl (by simp [hspoke]) hmatch

/-- **A task waits for an object.** -/
lemma block (h : Consistent cfg space s) (hx : s.shared.tcb t = some x) (hready : x.isReady = true)
    (ho : o ∈ s.listed) (hctr : ∀ k, s.shared.sem o = some k → k.ctr = 0)
    (hnew : ∀ u z, s.shared.tcb u = some z → z.pendDataTblPtr ≠ some d) (timeout : Tick) :
    Leads cfg space {t} s (((((s.leaveRdy t).enterWheelUnless cfg t timeout).joinPend o d
      x.prio).setPendData d ⟨t, o⟩).setTcb t
        (((x.pending .sem).blocked cfg s.shared.osTickCtr timeout).listedAt d 1)) := by
  have hconsistent := h.block hx hready ho hctr hnew timeout
  have hoff := (h.tcb t x hx).spoke_of_isReady hready
  by_cases hzero : timeout = 0
  · rw [Queues.enterWheelUnless, if_pos hzero, OsTcb.blocked, if_pos hzero] at hconsistent ⊢
    refine of_leaves (.of_setTcb hconsistent hx rfl rfl
      (.of_not_isDelayed rfl (by simp [OsTcb.isDelayed, hoff])) (fun hV => absurd rfl hV)
      (fun _ _ ha _ => ha) fun i ha => ?_) hx rfl (by simp [OsTcb.isLost, TaskState.isDly])
    have hspoke := (h.mem_spoke hx).mp ha
    simp [hoff] at hspoke
  · rw [Queues.enterWheelUnless, if_neg hzero, OsTcb.blocked, if_neg hzero] at hconsistent ⊢
    refine of_enterWheel hconsistent hx hoff rfl rfl rfl rfl (by simp) fun heq => hzero ?_
    simpa using heq

/-- **A task is created.** -/
lemma create (h : Consistent cfg space s) (hnew : s.shared.tcb t = none) (ht : t ∈ space.tcbs)
    (hprio : y.prio < cfg.prioMax) (hstate : y.taskState = .rdy) (hon : y.pendOn = .nothing)
    (hptr : y.pendDataTblPtr = none) (hentries : y.pendDataTblEntries = 0)
    (hspoke : y.tickSpokePtr = none) :
    Leads cfg space V s ((s.setTcb t y).setRdy y.prio (s.rdy y.prio ++ [t])) := by
  have hok : ∀ state : TaskState, state.isPend = false → state.isDly = false →
      (y.toState state).Ok cfg space s.shared.pendData t := by
    intro state hpend hdly
    exact ⟨ht, hprio, by simp [hpend, hon], fun _ => ⟨hptr, hentries⟩, by simp [hon],
      by simp [hspoke], by simp [hdly]⟩
  have hsame : y.toState .rdy = y := by
    rw [← hstate]
    rfl
  have hfresh := h.fresh hnew (hok .suspended rfl rfl) rfl hspoke hptr
  have hjoin := hfresh.join (y := y) (Queues.setTcb_tcb_self _ t _) rfl (hsame ▸ hok .rdy rfl rfl)
    (by simp [OsTcb.isReady, hstate]) rfl rfl (fun _ => rfl) rfl
    (List.perm_append_singleton t (s.rdy y.prio))
  rw [Queues.setTcb_setTcb] at hjoin
  have hne : ∀ u z, s.shared.tcb u = some z → u ≠ t := by
    rintro u z hz rfl
    simp [hnew] at hz
  refine ⟨⟨hjoin, ?settled, ?_, ?_, ?_, ?_, ?_, ?_, ?tcb, ?created⟩, ?tidy⟩
  case settled =>
    intro hsettled i a ha
    obtain ⟨z, hz, -⟩ := h.of_mem_spoke ha
    have hframe : ((s.setTcb t y).setRdy y.prio (s.rdy y.prio ++ [t])).shared.matchOf a
        = s.shared.matchOf a := matchOf_setTcb_of_ne (hne a z hz)
    rw [hframe]
    exact hsettled i a ha
  case tcb =>
    exact fun u z hz => ⟨z, (s.setTcb_tcb_of_ne y (hne u z hz)).trans hz, .refl z, fun _ => id⟩
  case created =>
    intro u z hnone hz _
    rcases eq_or_ne u t with rfl | hu
    · obtain rfl := Option.some_inj.mp ((s.setTcb_tcb_self u y).symm.trans hz)
      simp [OsTcb.isReady, hstate]
    · simp [(s.setTcb_tcb_of_ne y hu).symm.trans hz] at hnone
  case tidy =>
    intro u z hz hlost
    rcases eq_or_ne u t with rfl | hu
    · obtain rfl := Option.some_inj.mp ((s.setTcb_tcb_self u y).symm.trans hz)
      simp [OsTcb.isLost, hstate, TaskState.isDly] at hlost
    · exact ⟨z, (s.setTcb_tcb_of_ne y hu).symm.trans hz, hlost⟩
  all_goals intros; rfl

/-- **Variables are written**, other than those of the clock and the current task. -/
lemma setVars (h : Consistent cfg space s) (v : OsVars)
    (hrunning : v.osRunning = s.shared.osRunning)
    (hnesting : v.osIntNestingCtr = s.shared.osIntNestingCtr)
    (hprio : v.osPrioCur = s.shared.osPrioCur) (hcur : v.osTcbCurPtr = s.shared.osTcbCurPtr)
    (hctr : v.osTickCtr = s.shared.osTickCtr) (hlock : 0 < s.shared.osIntNestingCtr →
      v.osSchedLockNestingCtr = s.shared.osSchedLockNestingCtr) :
    Leads cfg space V s { s with shared := { s.shared with toOsVars := v } } where
  consistent := h.setVars v hctr
  settled hsettled i a ha := by
    simp only [hctr]
    exact hsettled i a ha
  osRunning := hrunning
  osIntNestingCtr := hnesting
  osPrioCur := hprio
  osTcbCurPtr := hcur
  osTickCtr := hctr
  lock := hlock
  tcb _ x hx := ⟨x, hx, .refl x, fun _ => id⟩
  created _ _ hnone hy := by simp [hnone] at hy
  tidy _ y hy hlost := ⟨y, hy, hlost⟩

end Leads

end Leads

/-! ### What a service leaves -/

/-- What a task still does refers to memory that is there. -/
def Cont.Ok (space : Space) : Cont → Prop
  | .semPend pSem => pSem ∈ space.sems
  | _ => True

/-- What is left of a service refers to tasks and lists that are there. -/
def Part.Ok (cfg : Config) (space : Space) (tcb : Mem OsTcb) : Part → Prop
  | .roundRobinYield => True
  | .taskCreate pTcb prio _ _ => pTcb ∈ space.tcbs ∧ prio < cfg.prioMax
  | .taskSemPendAbort pTcb _ _ => tcb pTcb ≠ none
  | .tickRotate prio _ => prio < cfg.prioMax ∧ tcb cfg.osTmrTaskTcb ≠ none
  | .tickRoundRobin _ | .tickTmrRead _ | .tickTmrWrite _ _ | .tickTmrTest _ | .tickTmrLoad _
  | .tickTmrPost _ => tcb cfg.osTmrTaskTcb ≠ none

/-- What is left of a service that was cut refers to memory that is there. -/
def Outcome.Ok (cfg : Config) (space : Space) (tcb : Mem OsTcb) : Outcome → Prop
  | .done _ => True
  | .more p => p.Ok cfg space tcb
  | .sched k => k.Ok space

/-- What a service leaves that was called in the state `s`.  A task that waits now, if it is the
current one, is about to call `OSSched`, and the scheduler is not locked. -/
def Served (cfg : Config) (space : Space) (s : Queues) (out : Outcome) (s' : Queues) : Prop :=
  ∃ V : Set ℕ, Leads cfg space V s s' ∧ cfg.osIdleTaskTcb ∉ V ∧ out.Ok cfg space s'.shared.tcb
    ∧ ∀ t ∈ V, s.shared.osTcbCurPtr = some t → s.shared.osIntNestingCtr = 0
      ∧ s'.shared.osSchedLockNestingCtr = 0 ∧ ∃ k, out = .sched k

/-- What a service leaves that the current task `t` called; it loses the delay of this task if
`late` is true. -/
structure ServedUnless (late : Prop) (cfg : Config) (space : Space) (s : Queues) (t : ℕ)
    (out : Outcome) (s' : Queues) : Prop where
  served : ∃ V : Set ℕ, Leaves cfg space V s s' ∧ cfg.osIdleTaskTcb ∉ V
    ∧ out.Ok cfg space s'.shared.tcb
    ∧ ∀ t ∈ V, s.shared.osTcbCurPtr = some t → s.shared.osIntNestingCtr = 0
      ∧ s'.shared.osSchedLockNestingCtr = 0 ∧ ∃ k, out = .sched k
  tidy : ¬ late → Tidy s s'
  lost : late → ∃ y, s'.shared.tcb t = some y ∧ y.isLost = true

/-- What a service is called in: there is a current task, and if no interrupt is served it is ready
and not the idle task. -/
structure Callable (cfg : Config) (space : Space) (s : Queues) (t : ℕ) (x : OsTcb) : Prop where
  consistent : Consistent cfg space s
  osTcbCurPtr : s.shared.osTcbCurPtr = some t
  tcb : s.shared.tcb t = some x
  osPrioCur : s.shared.osPrioCur = x.prio
  ready : s.shared.osIntNestingCtr = 0 → x.isReady = true ∧ t ≠ cfg.osIdleTaskTcb

section Rules

variable {cfg : Config} {space : Space} {V : Set ℕ} {s s' : Queues} {t u o d p : ℕ} {x y : OsTcb}
variable {ts : ℕ}

/-- Tasks stay where they are. -/
lemma Leaves.tcb_ne_none (h : Leaves cfg space V s s') {u : ℕ} (hu : s.shared.tcb u ≠ none) :
    s'.shared.tcb u ≠ none := by
  obtain ⟨x, hx⟩ := Option.ne_none_iff_exists'.mp hu
  obtain ⟨y, hy, -⟩ := h.tcb u x hx
  exact hy ▸ Option.some_ne_none y

/-- What is left of a service is good as long as no task goes. -/
lemma Part.Ok.mono {q : Part} {tcb tcb' : Mem OsTcb} (h : q.Ok cfg space tcb)
    (hmono : ∀ u, tcb u ≠ none → tcb' u ≠ none) : q.Ok cfg space tcb' := by
  cases q with
  | roundRobinYield => trivial
  | taskCreate pTcb prio timeQuanta timeQuantaCtr => exact h
  | taskSemPendAbort pTcb opt ts => exact hmono _ h
  | tickRotate prio ts => exact ⟨h.1, hmono _ h.2⟩
  | _ => exact hmono _ h

lemma Served.of_leads {out : Outcome} (h : Leads cfg space ∅ s s')
    (hout : out.Ok cfg space s'.shared.tcb) : Served cfg space s out s' :=
  ⟨∅, h, Set.notMem_empty _, hout, fun _ ht => absurd ht (Set.notMem_empty _)⟩

/-- A service that loses no delay. -/
lemma Served.unless {late : Prop} {out : Outcome} (h : Served cfg space s out s')
    (hnot : ¬ late) (t : ℕ) : ServedUnless late cfg space s t out s' where
  served := by
    obtain ⟨V, hl, hrest⟩ := h
    exact ⟨V, hl.toLeaves, hrest⟩
  tidy _ := by
    obtain ⟨V, hl, -⟩ := h
    exact hl.tidy
  lost hlate := absurd hlate hnot

lemma Served.done {r : Ret} (h : Leads cfg space ∅ s s') : Served cfg space s (.done r) s' :=
  .of_leads h trivial

lemma Served.ret {r : Ret} (h : Leads cfg space ∅ s s') :
    Served cfg space s (.sched (.ret r)) s' :=
  .of_leads h trivial

lemma ok_schedUnless {tcb : Mem OsTcb} (opt : BitVec 16) (r : Ret) :
    (schedUnless opt r).Ok cfg space tcb := by
  unfold Ucos.schedUnless
  split_ifs
  · trivial
  · trivial

lemma Served.schedUnless {opt : BitVec 16} {r : Ret} (h : Leads cfg space ∅ s s') :
    Served cfg space s (schedUnless opt r) s' :=
  .of_leads h (ok_schedUnless opt r)

/-- What a service leaves that has no task wait. -/
def Mild (cfg : Config) (space : Space) (s : Queues) (out : Outcome) (s' : Queues) : Prop :=
  Leads cfg space ∅ s s' ∧ out.Ok cfg space s'.shared.tcb

lemma Mild.served {out : Outcome} (h : Mild cfg space s out s') : Served cfg space s out s' :=
  .of_leads h.1 h.2

lemma Mild.done {r : Ret} (h : Leads cfg space ∅ s s') : Mild cfg space s (.done r) s' :=
  ⟨h, trivial⟩

lemma Mild.schedUnless {opt : BitVec 16} {r : Ret} (h : Leads cfg space ∅ s s') :
    Mild cfg space s (schedUnless opt r) s' :=
  ⟨h, ok_schedUnless opt r⟩

/-- What a service leaves that may be called before `OSStart`: it does not call `OSSched` then. -/
structure Calm (cfg : Config) (space : Space) (s : Queues) (out : Outcome) (s' : Queues) :
    Prop where
  leads : Leads cfg space ∅ s s'
  lock : s'.shared.osSchedLockNestingCtr = s.shared.osSchedLockNestingCtr
  ok : out.Ok cfg space s'.shared.tcb
  more : ∀ q, out = .more q →
    ∃ t p timeQuanta timeQuantaCtr, q = .taskCreate t p timeQuanta timeQuantaCtr
      ∧ s'.shared.tcb t = none
  sched : ∀ k, out = .sched k → s.shared.osRunning = true

lemma Calm.mild {out : Outcome} (h : Calm cfg space s out s') : Mild cfg space s out s' :=
  ⟨h.leads, h.ok⟩

lemma Calm.done {r : Ret} (h : Leads cfg space ∅ s s')
    (hlock : s'.shared.osSchedLockNestingCtr = s.shared.osSchedLockNestingCtr) :
    Calm cfg space s (.done r) s' :=
  ⟨h, hlock, trivial, fun _ hq => by simp at hq, fun _ hk => by simp at hk⟩

/-- A service refuses, or only looks. -/
lemma ends_calm (h : Consistent cfg space s) (r : Ret) :
    (pure (.done r) : Kernel Outcome).Ends (Queues.exec cfg space) s (Calm cfg space s) :=
  .ret (.done (.refl h) rfl)

/-- A service refuses, or only looks. -/
lemma ends_done (h : Consistent cfg space s) (r : Ret) :
    (pure (.done r) : Kernel Outcome).Ends (Queues.exec cfg space) s (Served cfg space s) :=
  .ret (.done (.refl h))

/-- **`OSSchedLock`** -/
lemma ends_osSchedLock (h : Consistent cfg space s) :
    osSchedLock.Ends (Queues.exec cfg space) s (Served cfg space s) := by
  refine .after run_get (.ite (fun _ => ends_done h _) fun hnesting => ?_)
  refine .ite (fun _ => ends_done h _) fun _ => .ite (fun _ => ends_done h _) fun _ => ?_
  refine .after (run_modify _) (.ret (.done ?_))
  exact .setVars h _ rfl rfl rfl rfl rfl fun hpos => absurd hpos hnesting

/-- **`OSSchedUnlock`** -/
lemma ends_osSchedUnlock (h : Consistent cfg space s) :
    osSchedUnlock.Ends (Queues.exec cfg space) s (Served cfg space s) := by
  refine .after run_get (.ite (fun _ => ends_done h _) fun hnesting => ?_)
  refine .ite (fun _ => ends_done h _) fun _ => .ite (fun _ => ends_done h _) fun _ => ?_
  refine .after (run_modify _) (.ite (fun _ => .ret (.done ?_)) fun _ => .ret (.ret ?_))
  all_goals exact .setVars h _ rfl rfl rfl rfl rfl fun hpos => absurd hpos hnesting

/-- **`OSSchedRoundRobinCfg`** -/
lemma ends_osSchedRoundRobinCfg (h : Consistent cfg space s) (en : Bool) (dfltTimeQuanta : Tick) :
    (osSchedRoundRobinCfg cfg en dfltTimeQuanta).Ends (Queues.exec cfg space) s
      (Calm cfg space s) :=
  .after (run_modify _) (.ret (.done (.setVars h _ rfl rfl rfl rfl rfl fun _ => rfl) rfl))

/-- The time quanta of the first task of a list begin again. -/
lemma ends_timeQuantaRestart (h : Consistent cfg space s) (hp : p < cfg.prioMax)
    (hne : s.rdy p ≠ []) :
    (timeQuantaRestart p).Ends (Queues.exec cfg space) s fun _ s' => Leads cfg space ∅ s s' := by
  obtain ⟨t, ht⟩ := Option.ne_none_iff_exists'.mp (mt List.head?_eq_none_iff.mp hne)
  obtain ⟨x, hx, -⟩ := h.of_mem_rdy (List.mem_of_mem_head? ht)
  have hhead : Queues.exec cfg space (.rdyHead p) s = some (some t, s) := by
    rw [← ht]
    exact given_of hp _
  refine .command hhead (.after rfl (.after run_get ?_))
  refine .of_run (run_modifyTcb_of hx _) (.same h hx ?_)
  exact ⟨rfl, rfl, rfl, rfl, rfl, rfl, rfl⟩

/-- The first task of a ready list went to its end, and the next one begins with new quanta. -/
lemma ends_rotate (h : Consistent cfg space s) (hp : p < cfg.prioMax) (hne : s.rdy p ≠ []) :
    (timeQuantaRestart p).Ends (Queues.exec cfg space) (s.setRdy p ((s.rdy p).rotate 1)) fun _ s' =>
      Leads cfg space ∅ s s' := by
  have hconsistent : Consistent cfg space (s.setRdy p ((s.rdy p).rotate 1)) :=
    h.setRdy (List.rotate_perm _ _)
  have hleads : Leads cfg space ∅ s (s.setRdy p ((s.rdy p).rotate 1)) :=
    .of_tcb_eq hconsistent rfl rfl rfl
  refine (ends_timeQuantaRestart hconsistent hp ?_).mono fun _ _ hs => hleads.trans hs
  simpa [Queues.setRdy] using hne

/-- **`OSSchedRoundRobinYield`** -/
lemma ends_osSchedRoundRobinYield (h : Consistent cfg space s) :
    osSchedRoundRobinYield.Ends (Queues.exec cfg space) s (Served cfg space s) := by
  refine .after run_get (.ite (fun _ => ends_done h _) fun _ => ?_)
  refine .ite (fun _ => ends_done h _) fun _ => .ite (fun _ => ends_done h _) fun _ => ?_
  exact .ret (.of_leads (.refl h) trivial)

/-- `OSSchedRoundRobinYield`, from `CPU_CRITICAL_ENTER()` on. -/
lemma ends_roundRobinYield (h : Consistent cfg space s) (hp : s.shared.osPrioCur < cfg.prioMax) :
    roundRobinYield.Ends (Queues.exec cfg space) s (Mild cfg space s) := by
  refine .after run_get (.command (given_of hp _) ?_)
  refine .ite (fun _ => .ret (.done (.refl h))) fun hlen => .command (given_of hp _) ?_
  refine (ends_rotate h hp fun hnil => hlen ?_).bind fun _ _ hs => .ret ⟨hs, trivial⟩
  rw [hnil, List.length_nil]
  exact Nat.zero_lt_two

/-- The fields of a task that is delayed fit together. -/
lemma delayed_ok (hok : x.Ok cfg space s.shared.pendData t) (hready : x.isReady = true)
    (m prev : Tick) :
    (((x.toState .dly).dueAt m prev).inSpoke (m.toNat % cfg.tickWheelSize)).Ok cfg space
      s.shared.pendData t := by
  obtain ⟨hon, hptr, hentries⟩ := hok.free_of_isReady hready
  constructor
  case mem => exact hok.mem
  case prio_lt => exact hok.prio_lt
  case pend => simp [hon, TaskState.isPend]
  case free => exact fun _ => ⟨hptr, hentries⟩
  case entry => simp [hon]
  case spoke => simp [TaskState.isDly, eq_comm]
  case timed => simp

/-- What a delay leaves whose time is over already: the task stays ready, as `OS_TASK_STATE_DLY`. -/
lemma leaves_refused (h : Consistent cfg space s) (hx : s.shared.tcb t = some x)
    (hready : x.isReady = true) :
    Leaves cfg space ∅ s (s.setTcb t (x.toState .dly).unwheeled) := by
  have hok := h.tcb t x hx
  have hoff := hok.spoke_of_isReady hready
  obtain ⟨hon, hptr, hentries⟩ := hok.free_of_isReady hready
  refine .setTcb h hx ?_ ?_ rfl ?_ hoff.symm (absurd hoff) rfl
  · constructor
    case mem => exact hok.mem
    case prio_lt => exact hok.prio_lt
    case pend => simp [hon, TaskState.isPend]
    case free => exact fun _ => ⟨hptr, hentries⟩
    case entry => simp [hon]
    case spoke => simp
    case timed => simp [TaskState.isPend]
  · rw [hready]
    simp [OsTcb.isReady]
  · simp [OsTcb.isDelayed, hoff]

/-- The current task waits now. -/
lemma Served.part {k : Cont} (h : Leads cfg space {t} s s') (hidle : t ≠ cfg.osIdleTaskTcb)
    (hnesting : s.shared.osIntNestingCtr = 0) (hlock : s'.shared.osSchedLockNestingCtr = 0)
    (hk : k.Ok space) : Served cfg space s (.sched k) s' :=
  ⟨{t}, h, fun hmem => hidle (Set.mem_singleton_iff.mp hmem).symm, hk,
    fun _ _ _ => ⟨hnesting, hlock, k, rfl⟩⟩

/-- **`OSTimeDly`**: the task is delayed, unless it is time already. -/
lemma ends_timeDly (h : Callable cfg space s t x) (hnesting : s.shared.osIntNestingCtr = 0)
    (hlock : s.shared.osSchedLockNestingCtr = 0) {dly : Tick} {opt : BitVec 16}
    (hdly : opt = osOptTimeMatch ∨ dly ≠ 0) :
    (timeDly cfg dly opt).Ends (Queues.exec cfg space) s
      (ServedUnless (IsLate s.shared.osTickCtr dly opt) cfg space s t) := by
  obtain ⟨hready, hidle⟩ := h.ready hnesting
  have hok := h.consistent.tcb t x h.tcb
  have hoff := hok.spoke_of_isReady hready
  have hwheel : ∀ i, t ∉ s.spoke i := fun i hi => by
    simp [(h.consistent.mem_spoke h.tcb).mp hi] at hoff
  have hother : ∀ i, ∀ a ∈ s.spoke i, (s.setTcb t (x.toState .dly)).shared.tcb a ≠ none := by
    intro i a ha
    obtain ⟨z, hz, -⟩ := h.consistent.of_mem_spoke ha
    rw [s.setTcb_tcb_of_ne _ (ne_of_mem_of_not_mem ha (hwheel i)), hz]
    exact Option.some_ne_none z
  have hinsert : (osTickListInsert cfg t dly opt).run (Queues.exec cfg space)
      (s.setTcb t (x.toState .dly)) = _ :=
    run_osTickListInsert hok.mem (s.setTcb_tcb_self t (x.toState .dly)) hwheel hother dly opt
  refine .after (run_cur_of h.osTcbCurPtr) ?_
  refine .after (run_modifyTcb_of h.tcb _) ?_
  cases hdue : tickDue s.shared.osTickCtr (x.toState .dly) dly opt with
  | none =>
      simp only [Queues.setTcb_vars, hdue, Queues.setTcb_setTcb] at hinsert
      refine .after hinsert (.ite (fun _ => .ret ?_) fun herr => absurd herr (by simp))
      refine ⟨⟨∅, leaves_refused h.consistent h.tcb hready, Set.notMem_empty _, trivial,
        fun _ hmem => absurd hmem (Set.notMem_empty _)⟩, fun hnot => ?_, fun _ => ?_⟩
      · exact absurd ((tickDue_eq_none_iff hdly).mp hdue) hnot
      · exact ⟨_, Queues.setTcb_tcb_self _ t _, by simp [OsTcb.isLost, TaskState.isDly]⟩
  | some due =>
      have hnot : ¬ IsLate s.shared.osTickCtr dly opt := fun hlate => by
        simp [(tickDue_eq_none_iff hdly).mpr hlate] at hdue
      obtain ⟨m, prev⟩ := due
      have hleads := Leads.delay h.consistent h.tcb hready
        (delayed_ok hok hready m prev) (by simp [OsTcb.isReady]) rfl rfl
        (hok.free_of_isReady hready).2.1 (tickDue_ne hdue)
      simp only [Queues.setTcb_vars, hdue, Queues.enterWheel_setTcb s t m _ hwheel,
        Queues.setTcb_setTcb] at hinsert
      refine .after hinsert (.ite (fun herr => absurd rfl herr) fun _ => ?_)
      refine .after (run_osRdyListRemoveOf (Queues.setTcb_tcb_self _ t _) ?_) (.ret ?_)
      · exact (h.consistent.mem_rdy h.tcb).mpr ⟨hready, rfl⟩
      · have hserved : Served cfg space s (.sched (.ret returned)) _ :=
          .part hleads hidle hnesting hlock trivial
        exact hserved.unless hnot t

/-- When `OSTimeDly` loses the delay. -/
def LosesDelay (v : Shared) (dly : Tick) (opt : BitVec 16) : Prop :=
  v.osIntNestingCtr = 0 ∧ v.osSchedLockNestingCtr = 0 ∧ IsLate v.osTickCtr dly opt

/-- **`OSTimeDly`** -/
lemma ends_osTimeDly (h : Callable cfg space s t x) (dly : Tick) (opt : BitVec 16) :
    (osTimeDly cfg dly opt).Ends (Queues.exec cfg space) s
      (ServedUnless (LosesDelay s.shared dly opt) cfg space s t) := by
  have hdone : ∀ r, ¬ LosesDelay s.shared dly opt →
      (pure (.done r) : Kernel Outcome).Ends (Queues.exec cfg space) s
        (ServedUnless (LosesDelay s.shared dly opt) cfg space s t) :=
    fun r hnot => (ends_done h.consistent r).mono fun _ _ hs => hs.unless hnot t
  refine .after run_get (.ite (fun hpos => hdone _ fun hl => hpos.ne' hl.1) fun hpos => ?_)
  have hnesting := Nat.eq_zero_of_not_pos hpos
  refine .ite (fun hpos => hdone _ fun hl => hpos.ne' hl.2.1) fun hpos => ?_
  have hlock := Nat.eq_zero_of_not_pos hpos
  have hdly : opt = osOptTimeMatch ∨ dly ≠ 0 → (timeDly cfg dly opt).Ends (Queues.exec cfg space) s
      (ServedUnless (LosesDelay s.shared dly opt) cfg space s t) := fun hdly => by
    simpa only [LosesDelay, hnesting, hlock, true_and] using ends_timeDly h hnesting hlock hdly
  refine .ite (fun hopt => ?_) fun _ => .ite (fun hmatch => hdly (.inl hmatch)) fun hnot => ?_
  · refine .ite (fun _ => hdone _ fun hl => ?_) fun hne => hdly (.inr hne)
    rw [hl.2.2.1] at hopt
    simp [osOptTimeMatch, osOptTimeDly, osOptTimeTimeout, osOptTimePeriodic] at hopt
  · exact hdone _ fun hl => hnot hl.2.2.1

/-- When `OSTimeDlyHMSM` loses the delay. -/
def LosesHmsm (cfg : Config) (v : Shared) (hours minutes seconds : BitVec 16) (milli : BitVec 32)
    (opt : BitVec 16) : Prop :=
  hmsmInvalid hours minutes seconds milli opt = none
    ∧ hmsmTicks cfg hours minutes seconds milli ≠ 0
    ∧ LosesDelay v (hmsmTicks cfg hours minutes seconds milli) (opt &&& osOptTimeMask)

/-- **`OSTimeDlyHMSM`** -/
lemma ends_osTimeDlyHmsm (h : Callable cfg space s t x) (hours minutes seconds : BitVec 16)
    (milli : BitVec 32) (opt : BitVec 16) :
    (osTimeDlyHmsm cfg hours minutes seconds milli opt).Ends (Queues.exec cfg space) s
      (ServedUnless (LosesHmsm cfg s.shared hours minutes seconds milli opt) cfg space s t) := by
  have hdone : ∀ r, ¬ LosesHmsm cfg s.shared hours minutes seconds milli opt →
      (pure (.done r) : Kernel Outcome).Ends (Queues.exec cfg space) s
        (ServedUnless (LosesHmsm cfg s.shared hours minutes seconds milli opt) cfg space s t) :=
    fun r hnot => (ends_done h.consistent r).mono fun _ _ hs => hs.unless hnot t
  refine .after run_get (.ite (fun hpos => hdone _ fun hl => hpos.ne' hl.2.2.1) fun hpos => ?_)
  have hnesting := Nat.eq_zero_of_not_pos hpos
  refine .ite (fun hpos => hdone _ fun hl => hpos.ne' hl.2.2.2.1) fun hpos => ?_
  have hlock := Nat.eq_zero_of_not_pos hpos
  have hdly : (timeDlyHmsm cfg hours minutes seconds milli opt).Ends (Queues.exec cfg space) s
      (ServedUnless (LosesHmsm cfg s.shared hours minutes seconds milli opt) cfg space s t) := by
    rw [timeDlyHmsm]
    cases hvalid : hmsmInvalid hours minutes seconds milli opt with
    | some err => exact hdone _ fun hl => by simp [hl.1] at hvalid
    | none =>
        refine .ite (fun hticks => ?_) fun hticks => hdone _ fun hl => ?_
        · have hne : hmsmTicks cfg hours minutes seconds milli ≠ 0 :=
            (BitVec.pos_iff_ne_zero _).mp hticks
          simpa only [LosesHmsm, LosesDelay, hvalid, hne, hnesting, hlock, ne_eq, not_false_eq_true,
            true_and] using ends_timeDly h hnesting hlock (.inr hne)
        · exact hticks ((BitVec.pos_iff_ne_zero _).mpr hl.2.1)
  refine .ite (fun hopt => ?_) fun _ => .ite (fun _ => hdly) fun hnot => ?_
  · refine .ite (fun _ => hdone _ fun hl => ?_) fun _ => hdly
    rw [hl.2.2.2.2.1] at hopt
    simp [osOptTimeMatch, osOptTimeDly, osOptTimeTimeout, osOptTimePeriodic] at hopt
  · exact hdone _ fun hl => hnot hl.2.2.2.2.1

/-- **`OSSemCreate`** -/
lemma ends_osSemCreate (h : Consistent cfg space s) (pSem : Ptr) (cnt : SemCtr)
    (hsem : ∀ o, pSem = some o →
      o ∈ space.sems ∧ ∀ k, s.shared.sem o = some k → k.type ≠ .sem) :
    (osSemCreate pSem cnt).Ends (Queues.exec cfg space) s (Calm cfg space s) := by
  refine .after run_get (.ite (fun _ => ends_calm h _) fun _ => ?_)
  cases pSem with
  | none => exact ends_calm h _
  | some o =>
      obtain ⟨ho, htype⟩ := hsem o rfl
      obtain ⟨k, hk⟩ := Option.ne_none_iff_exists'.mp (h.sem_alloc o ho)
      have hnew : o ∉ s.listed := fun hlisted => by
        obtain ⟨-, j, hj, hjtype⟩ := (h.listed o).mp hlisted
        exact htype j hj hjtype
      have hnil : s.pend o = [] := by
        by_contra hne
        exact hnew (h.waiting o hne).1
      refine .after (run_modifySem_of hk _) ?_
      refine .command (given_of ⟨ho, hnil⟩ _) (.ret (.done ?_ rfl))
      exact .of_tcb_eq (h.list ho hnew rfl) rfl rfl rfl

/-- An object that was created is listed. -/
lemma Consistent.mem_listed (h : Consistent cfg space s) {k : OsSem} (ho : o ∈ space.sems)
    (hk : s.shared.sem o = some k) (htype : k.type = .sem) : o ∈ s.listed :=
  (h.listed o).mpr ⟨ho, k, hk, htype⟩

/-- `OSSemPend`, of a semaphore that was created. -/
lemma ends_semPendOf (h : Callable cfg space s t x) (hnesting : s.shared.osIntNestingCtr = 0)
    (ho : o ∈ s.listed) (hosem : o ∈ space.sems) (hd : d ∈ space.frames)
    (hnew : ∀ u z, s.shared.tcb u = some z → z.pendDataTblPtr ≠ some d) (timeout : Tick)
    (opt : BitVec 16) :
    (semPendOf cfg o d timeout opt).Ends (Queues.exec cfg space) s (Served cfg space s) := by
  obtain ⟨hready, hidle⟩ := h.ready hnesting
  have hc := h.consistent
  have hok := hc.tcb t x h.tcb
  obtain ⟨k, hk⟩ := Option.ne_none_iff_exists'.mp (hc.sem_alloc o hosem)
  refine .after run_get (.after (run_sem_of hk) (.ite (fun hpos => ?_) fun hzero => ?_))
  · refine .after (run_modifySem_of hk _) (.ret (.done ?_))
    refine .of_tcb_eq (hc.setSem hk rfl fun hne => ?_) rfl rfl rfl
    simp [(hc.waiting o hne).2 k hk] at hpos
  · refine .ite (fun _ => ends_done hc _) fun _ => .ite (fun _ => ends_done hc _) fun hlock => ?_
    have hctr : ∀ j, s.shared.sem o = some j → j.ctr = 0 := by
      intro j hj
      obtain rfl := Option.some_inj.mp (hk.symm.trans hj)
      simpa using hzero
    have hoff := hok.spoke_of_isReady hready
    have hrun := run_osPend_some hok.mem h.osTcbCurPtr h.tcb
      (fun i hi => by simp [(hc.mem_spoke h.tcb).mp hi] at hoff)
      (fun i a ha => by
        obtain ⟨z, hz, -⟩ := hc.of_mem_spoke ha
        simp [hz])
      ((hc.mem_rdy h.tcb).mpr ⟨hready, rfl⟩) ho hd (hc.pendData_alloc d hd)
      (fun q hq => by
        obtain ⟨u, z, -, hz, hzd, -⟩ := hc.of_mem_pend hq
        exact hnew u z hz hzd)
      (fun e he => by
        obtain ⟨u, z, hdata, hz, -⟩ := hc.of_mem_pend he
        simp [Shared.prioOf, hdata, hz])
      (hc.pend_length_lt h.tcb (hok.free_of_isReady hready).2.1 o) cfg .sem timeout
    have hleads := Leads.block hc h.tcb hready ho hctr hnew timeout
    refine .after hrun (.ret (.part hleads hidle hnesting ?_ hosem))
    simpa using hlock

/-- **`OSSemPend`** -/
lemma ends_osSemPend (h : Callable cfg space s t x) (pSem : Ptr)
    (hsem : ∀ o, pSem = some o → o ∈ space.sems)
    (hd : d ∈ space.frames) (hnew : ∀ u z, s.shared.tcb u = some z → z.pendDataTblPtr ≠ some d)
    (timeout : Tick) (opt : BitVec 16) :
    (osSemPend cfg pSem d timeout opt).Ends (Queues.exec cfg space) s (Served cfg space s) := by
  have hc := h.consistent
  refine .after run_get (.ite (fun _ => ends_done hc _) fun hnesting => ?_)
  cases pSem with
  | none => exact ends_done hc _
  | some o =>
      obtain ⟨k, hk⟩ := Option.ne_none_iff_exists'.mp (hc.sem_alloc o (hsem o rfl))
      refine .ite (fun _ => ends_done hc _) fun _ => .after (run_sem_of hk) ?_
      refine .ite (fun _ => ends_done hc _) fun htype => ?_
      exact ends_semPendOf h (Nat.eq_zero_of_not_pos hnesting)
        (hc.mem_listed (hsem o rfl) hk (not_not.mp htype)) (hsem o rfl) hd hnew timeout opt

/-- What a release leaves of the lists of the objects. -/
lemma release_pend (s : Queues) (t d : ℕ) (y : OsTcb) (o : ℕ) :
    (s.release t (some d) y).pend o = (s.pend o).erase d := by
  unfold Queues.release
  split_ifs <;> simp [Queues.leavePend]

@[simp] lemma release_listed (s : Queues) (t : ℕ) (d : Ptr) (y : OsTcb) :
    (s.release t d y).listed = s.listed := by
  unfold Queues.release
  split_ifs <;> simp

/-- **The first of those who wait for an object is released**, by a function that does so. -/
lemma ends_releaseHead (h : Consistent cfg space s) {L : List ℕ} (hL : s.pend o = d :: L)
    (pendStatus : PendStatus) (ts : ℕ) (release : ℕ → Kernel Unit)
    (hrelease : ∀ t x, Waiting cfg space s t x → x.taskState.isPend = true →
      (release t).run (Queues.exec cfg space) s
        = some ((), s.release t x.pendDataTblPtr (x.released pendStatus ts))) :
    ∃ t x, s.shared.pendData d = some ⟨t, o⟩ ∧ s.shared.tcb t = some x
      ∧ x.pendDataTblPtr = some d
      ∧ (release t).run (Queues.exec cfg space) s
        = some ((), s.release t (some d) (x.released pendStatus ts))
      ∧ Leads cfg space ∅ s (s.release t (some d) (x.released pendStatus ts))
      ∧ (s.release t (some d) (x.released pendStatus ts)).pend o = L := by
  have hd : d ∈ s.pend o := hL ▸ List.mem_cons_self
  obtain ⟨t, x, he, hx, hptr, hon⟩ := h.of_mem_pend hd
  have hpend : x.taskState.isPend = true := (h.tcb t x hx).pend.mpr (by simp [hon])
  have hrun := hrelease t x (h.isWaiting hx (OsTcb.not_isReady_of_isPend hpend)) hpend
  have hleads : Leads cfg space ∅ s (s.release t x.pendDataTblPtr (x.released pendStatus ts)) :=
    .release h hx hpend OsTcb.freed_released
  rw [hptr] at hrun hleads
  refine ⟨t, x, he, hx, hptr, hrun, hleads, ?_⟩
  rw [release_pend, hL, List.erase_cons_head]

/-- The first `n` of those who wait for the object `o` are released, and nothing else happens. -/
structure Released (pendStatus : PendStatus) (ts o n : ℕ) (s s' : Queues) : Prop where
  pend : s'.pend o = (s.pend o).drop n
  sem : s'.shared.sem = s.shared.sem
  tcb : ∀ u, s'.shared.tcb u = (s.shared.tcb u).map fun z =>
    if ∃ d ∈ (s.pend o).take n, z.pendDataTblPtr = some d then z.released pendStatus ts else z

lemma Released.zero (pendStatus : PendStatus) (ts o : ℕ) (s : Queues) :
    Released pendStatus ts o 0 s s :=
  ⟨by simp, rfl, by simp⟩

/-- The first one is released, and then others are. -/
lemma Released.cons {pendStatus : PendStatus} {n : ℕ} {L : List ℕ} (h : Consistent cfg space s)
    (hL : s.pend o = d :: L) (he : s.shared.pendData d = some ⟨t, o⟩)
    (hx : s.shared.tcb t = some x) (hptr : x.pendDataTblPtr = some d)
    (hrest : (s.release t (some d) (x.released pendStatus ts)).pend o = L)
    (h' : Released pendStatus ts o n (s.release t (some d) (x.released pendStatus ts)) s') :
    Released pendStatus ts o (n + 1) s s' where
  pend := by rw [h'.pend, hrest, hL, List.drop_succ_cons]
  sem := by
    rw [h'.sem, (Leads.release_tcb _ _ _ _).1]
    rfl
  tcb u := by
    rw [h'.tcb u, hrest, (Leads.release_tcb _ _ _ _).1, hL, List.take_succ_cons]
    rcases eq_or_ne u t with rfl | hu
    · simp [hx, hptr, OsTcb.released]
    · rw [s.setTcb_tcb_of_ne _ hu]
      refine Option.map_congr fun z hz => ?_
      -- the `OS_PEND_DATA` of another task is another one
      have hne : z.pendDataTblPtr ≠ some d := fun hzd => hu (h.entry_unique hz hzd he)
      simp [hne]

/-- **The loop of `OS_SemPost`** releases as many tasks as it is told. -/
lemma ends_semPostLoop (n : ℕ) (h : Consistent cfg space s) (hn : n ≤ (s.pend o).length) :
    (semPostLoop o ts n (s.pend o).head?).Ends (Queues.exec cfg space) s fun _ s' =>
      Leads cfg space ∅ s s' ∧ Released .ok ts o n s s' := by
  induction n generalizing s with
  | zero => exact .ret ⟨.refl h, .zero ..⟩
  | succ n ih =>
      cases hL : s.pend o with
      | nil => simp [hL] at hn
      | cons d L =>
          obtain ⟨t, x, he, hx, hptr, hrun, hleads, hrest⟩ :=
            ends_releaseHead h hL .ok ts (fun t => osPost (some o) t ts) fun t x hw hpend =>
              hw.run_osPost h.spoke.nodup ts (some o) hpend (by simp)
          have hnext : Queues.exec cfg space (.pendNext d) s = some (L.head?, s) := by
            have hmem : d ∈ s.pend o := hL ▸ List.mem_cons_self
            have hnextIn : nextIn (s.pend o) d = L.head? := by
              rw [hL]
              exact nextIn_cons d L
            simp [Queues.exec, he, given_of hmem, hnextIn]
          refine .after rfl (.after (run_pendData_of he) ?_)
          refine .command hnext (.after hrun ?_)
          have hloop := ih hleads.consistent (by
            rw [hrest]
            simpa [hL] using hn)
          rw [hrest] at hloop
          exact hloop.mono fun _ s' hs => ⟨hleads.trans hs.1, .cons h hL he hx hptr hrest hs.2⟩

/-- What `OSSemPost` makes of a semaphore: tasks that wait for it are released, and if there are
none it is signalled. -/
def Posted (opt : BitVec 16) (ts o : ℕ) (s s' : Queues) : Prop :=
  if s.pend o = [] then s'.shared.tcb = s.shared.tcb ∧ s'.pend o = [] ∧ s'.shared.sem
    = Function.update s.shared.sem o ((s.shared.sem o).map fun k =>
      if k.ctr = BitVec.allOnes 32 then k else { k with ctr := k.ctr + 1, ts := ts })
  else Released .ok ts o (if opt &&& osOptPostAll ≠ 0 then (s.pend o).length else 1) s s'

/-- `OS_SemPost` -/
lemma ends_semPost (h : Consistent cfg space s) (ho : o ∈ space.sems) (hlisted : o ∈ s.listed)
    (opt : BitVec 16) :
    (semPost o opt ts).Ends (Queues.exec cfg space) s fun out s' =>
      Served cfg space s out s' ∧ Posted opt ts o s s' := by
  obtain ⟨k, hk⟩ := Option.ne_none_iff_exists'.mp (h.sem_alloc o ho)
  refine .command (given_of hlisted _) (.ite (fun hlen => ?_) fun hlen => ?_)
  · have hnil := List.length_eq_zero_iff.mp hlen
    refine .after (run_sem_of hk) (.ite (fun hmax => .ret ⟨.done (.refl h), ?_⟩) fun hmax => ?_)
    · rw [Posted, if_pos hnil, hk, Option.map_some, if_pos hmax, ← hk, Function.update_eq_self]
      exact ⟨rfl, hnil, rfl⟩
    · refine .after (run_modifySem_of hk _) (.ret ⟨.done ?_, ?_⟩)
      · exact .of_tcb_eq (h.setSem hk rfl fun hne => absurd hnil hne) rfl rfl rfl
      · rw [Posted, if_pos hnil, hk, Option.map_some, if_neg hmax]
        exact ⟨rfl, hnil, rfl⟩
  · refine .command (given_of hlisted _) (.bind (ends_semPostLoop _ h ?_) ?_)
    · split_ifs
      · exact le_refl _
      · exact Nat.pos_of_ne_zero hlen
    · rintro ⟨⟩ s' ⟨hs, hreleased⟩
      refine .after (run_sem_of ((congrFun hreleased.sem o).trans hk)) (.ret ⟨.schedUnless hs, ?_⟩)
      rwa [Posted, if_neg (mt List.length_eq_zero_iff.mpr hlen)]

/-- **`OSSemPost`** -/
lemma ends_osSemPost (h : Consistent cfg space s) (pSem : Ptr)
    (hsem : ∀ o, pSem = some o → o ∈ space.sems) (opt : BitVec 16) :
    (osSemPost pSem opt ts).Ends (Queues.exec cfg space) s (Served cfg space s) := by
  cases pSem with
  | none => exact ends_done h _
  | some o =>
      obtain ⟨k, hk⟩ := Option.ne_none_iff_exists'.mp (h.sem_alloc o (hsem o rfl))
      refine .ite (fun _ => ends_done h _) fun _ => .after (run_sem_of hk) ?_
      refine .ite (fun _ => ends_done h _) fun htype => ?_
      have hlisted := h.mem_listed (hsem o rfl) hk (not_not.mp htype)
      exact (ends_semPost h (hsem o rfl) hlisted opt).mono fun _ _ hs => hs.1

/-- How many tasks `OSSemPendAbort` releases: all that wait only if it is told so and nothing
else, also where they are to be released without a call of `OSSched`. -/
def abortCount (opt : BitVec 16) (waiting : List ℕ) : ℕ :=
  if opt = osOptPendAbortAll then waiting.length else min 1 waiting.length

/-- Where no task waits, none is released. -/
lemma ends_semPendAbortNone (h : Consistent cfg space s) (hlen : (s.pend o).length = 0)
    (opt : BitVec 16) (nbrTasks : ℕ) :
    (pure nbrTasks : Kernel ℕ).Ends (Queues.exec cfg space) s fun n s' =>
      Leads cfg space ∅ s s' ∧ n = nbrTasks + abortCount opt (s.pend o)
        ∧ Released .abort ts o (abortCount opt (s.pend o)) s s' := by
  have hzero : abortCount opt (s.pend o) = 0 := by
    simp [abortCount, List.length_eq_zero_iff.mp hlen]
  rw [hzero]
  exact .ret ⟨.refl h, rfl, .zero ..⟩

/-- **The loop of `OSSemPendAbort`** ends. -/
lemma ends_semPendAbortLoop (h : Consistent cfg space s) (hlisted : o ∈ s.listed) (opt : BitVec 16)
    (fuel nbrTasks : ℕ) (hfuel : (s.pend o).length ≤ fuel) :
    (semPendAbortLoop o ts opt fuel nbrTasks).Ends (Queues.exec cfg space) s fun n s' =>
      Leads cfg space ∅ s s' ∧ n = nbrTasks + abortCount opt (s.pend o)
        ∧ Released .abort ts o (abortCount opt (s.pend o)) s s' := by
  induction fuel generalizing s nbrTasks with
  | zero =>
      refine .command (given_of hlisted _) (.ite (fun hlen => ?_) fun hlen => ?_)
      · exact ends_semPendAbortNone h hlen opt nbrTasks
      · exact absurd (Nat.le_zero.mp hfuel) hlen
  | succ fuel ih =>
      refine .command (given_of hlisted _)
        (.ite (fun hlen => ends_semPendAbortNone h hlen opt nbrTasks) fun hlen => ?_)
      cases hL : s.pend o with
      | nil => simp [hL] at hlen
      | cons d L =>
          obtain ⟨t, x, he, hx, hptr, hrun, hleads, hrest⟩ :=
            ends_releaseHead h hL .abort ts (fun t => osPendAbort (some o) t ts) fun t x hw hpend =>
              hw.run_osPendAbort h.spoke.nodup ts (some o) hpend (by simp)
          have hhead : Queues.exec cfg space (.pendHead o) s = some (some d, s) := by
            simp [Queues.exec, given_of hlisted, hL]
          refine .command hhead (.after rfl (.after (run_pendData_of he) ?_))
          refine .after hrun (.ite (fun hone => .ret ⟨hleads, ?_⟩) fun hall => ?_)
          · have hcount : abortCount opt (d :: L) = 0 + 1 := by simp [abortCount, hone]
            rw [hcount]
            exact ⟨rfl, .cons h hL he hx hptr hrest (.zero ..)⟩
          · have hcount : abortCount opt (d :: L) = abortCount opt L + 1 := by
              simp [abortCount, not_not.mp hall]
            have hloop := ih hleads.consistent (by simpa using hlisted) (nbrTasks + 1) (by
              rw [hrest]
              simpa [hL] using hfuel)
            rw [hrest] at hloop
            refine hloop.mono fun n s' hs => ⟨hleads.trans hs.1, ?_, ?_⟩
            · rw [hs.2.1, hcount]
              omega
            · rw [hcount]
              exact .cons h hL he hx hptr hrest hs.2.2

/-- `OSSemPendAbort`, from `CPU_CRITICAL_ENTER()` on. -/
lemma ends_semPendAbort (h : Consistent cfg space s) (hlisted : o ∈ s.listed) (opt : BitVec 16) :
    (semPendAbort o opt ts).Ends (Queues.exec cfg space) s fun out s' =>
      Served cfg space s out s' ∧ Released .abort ts o (abortCount opt (s.pend o)) s s' := by
  refine .command (given_of hlisted _) (.ite (fun hlen => .ret ⟨.done (.refl h), ?_⟩) fun _ => ?_)
  · have hzero : abortCount opt (s.pend o) = 0 := by
      simp [abortCount, List.length_eq_zero_iff.mp hlen]
    rw [hzero]
    exact .zero ..
  · refine (ends_semPendAbortLoop h hlisted opt _ 0 (le_refl _)).bind fun _ s' hs => ?_
    exact .ret ⟨.schedUnless hs.1, hs.2.2⟩

/-- **`OSSemPendAbort`** -/
lemma ends_osSemPendAbort (h : Consistent cfg space s) (pSem : Ptr)
    (hsem : ∀ o, pSem = some o → o ∈ space.sems) (opt : BitVec 16) :
    (osSemPendAbort pSem opt ts).Ends (Queues.exec cfg space) s (Served cfg space s) := by
  refine .after run_get (.ite (fun _ => ends_done h _) fun _ => ?_)
  cases pSem with
  | none => exact ends_done h _
  | some o =>
      obtain ⟨k, hk⟩ := Option.ne_none_iff_exists'.mp (h.sem_alloc o (hsem o rfl))
      refine .ite (fun _ => ends_done h _) fun _ => .after (run_sem_of hk) ?_
      refine .ite (fun _ => ends_done h _) fun htype => ?_
      have hlisted := h.mem_listed (hsem o rfl) hk (not_not.mp htype)
      refine (ends_semPendAbort h hlisted opt).mono fun _ _ hs => hs.1

/-- **`OSSemSet`** -/
lemma ends_osSemSet (h : Consistent cfg space s) (pSem : Ptr)
    (hsem : ∀ o, pSem = some o → o ∈ space.sems) (cnt : SemCtr) :
    (osSemSet pSem cnt).Ends (Queues.exec cfg space) s (Served cfg space s) := by
  refine .after run_get (.ite (fun _ => ends_done h _) fun _ => ?_)
  cases pSem with
  | none => exact ends_done h _
  | some o =>
      obtain ⟨k, hk⟩ := Option.ne_none_iff_exists'.mp (h.sem_alloc o (hsem o rfl))
      refine .after (run_sem_of hk) (.ite (fun _ => ends_done h _) fun htype => ?_)
      have hlisted := h.mem_listed (hsem o rfl) hk (not_not.mp htype)
      refine .command (given_of hlisted _) (.ite (fun hfree => ?_) fun _ => ends_done h _)
      refine .after (run_modifySem_of hk _) (.ret (.done ?_))
      refine .of_tcb_eq (h.setSem hk rfl fun hne => ?_) rfl rfl rfl
      rcases hfree with hpos | hlen
      · simp [(h.waiting o hne).2 k hk] at hpos
      · exact absurd (List.length_eq_zero_iff.mp hlen) hne

/-- `OSTaskCreate`, from `OS_CRITICAL_ENTER()` on. -/
lemma ends_taskCreate (h : Consistent cfg space s) (ht : t ∈ space.tcbs)
    (hnew : s.shared.tcb t = none) (hprio : p < cfg.prioMax) (timeQuanta timeQuantaCtr : Tick) :
    (taskCreate cfg t p timeQuanta timeQuantaCtr).Ends (Queues.exec cfg space) s fun out s' =>
      Calm cfg space s out s' ∧ ∀ q, out ≠ .more q := by
  have hrdy : ∀ q, t ∉ s.rdy q := by
    intro q hq
    obtain ⟨z, hz, -⟩ := h.of_mem_rdy hq
    simp [hnew] at hz
  refine .after (run_modify _) (.command (given_of ⟨hprio, ht, hrdy⟩ _) ?_)
  have hleads : Leads cfg space ∅ s _ := .create (y := { osTaskInitTcb cfg with
    prio := p
    timeQuanta := timeQuanta
    timeQuantaCtr := timeQuantaCtr }) h hnew ht hprio rfl rfl rfl rfl rfl
  refine .after run_get (.ite (fun _ => .ret ⟨.done hleads rfl, by simp⟩) fun hrunning => .ret ?_)
  exact ⟨⟨hleads, rfl, trivial, fun _ hq => by simp at hq, fun _ _ => eq_true_of_ne_false hrunning⟩,
    by simp⟩

/-- **`OSTaskCreate`** -/
lemma ends_osTaskCreate (h : Consistent cfg space s) (pTcb pTask : Ptr) (pStkBase : Ptr)
    (hnew : ∀ t, pTcb = some t → t ∈ space.tcbs ∧ s.shared.tcb t = none)
    (stkLimit stkSize : ℕ) (timeQuanta : Tick) :
    (osTaskCreate cfg pTcb pTask p pStkBase stkLimit stkSize timeQuanta).Ends
      (Queues.exec cfg space) s (Calm cfg space s) := by
  refine .after run_get (.ite (fun _ => ends_calm h _) fun _ => ?_)
  cases pTcb with
  | none => exact ends_calm h _
  | some t =>
      refine .ite (fun _ => ends_calm h _) fun _ => .ite (fun _ => ends_calm h _) fun _ => ?_
      refine .ite (fun _ => ends_calm h _) fun _ => .ite (fun _ => ends_calm h _) fun _ => ?_
      refine .ite (fun _ => ends_calm h _) fun hprio => .ite (fun _ => ends_calm h _) fun _ => ?_
      obtain ⟨ht, hnone⟩ := hnew t rfl
      refine .ret ⟨.refl h, rfl, ⟨ht, not_le.mp hprio⟩, fun q hq => ?_, fun _ hk => by simp at hk⟩
      exact ⟨_, _, _, _, (Outcome.more.inj hq).symm, hnone⟩

/-- **A task waits for its own semaphore.** -/
lemma leads_pendSelf (h : Consistent cfg space s) (hx : s.shared.tcb t = some x)
    (hready : x.isReady = true) (timeout : Tick) :
    Leads cfg space {t} s (((s.leaveRdy t).enterWheelUnless cfg t timeout).setTcb t
      ((x.pending .taskSem).blocked cfg s.shared.osTickCtr timeout).unlisted) := by
  have hok := h.tcb t x hx
  have hoff := hok.spoke_of_isReady hready
  have hptr := (hok.free_of_isReady hready).2.1
  by_cases hzero : timeout = 0
  · rw [Queues.enterWheelUnless, if_pos hzero, OsTcb.blocked, if_pos hzero]
    refine .part h hx hready ⟨hok.mem, hok.prio_lt, ?_, fun _ => ⟨rfl, rfl⟩, ?_, ?_, ?_⟩
      (by simp [OsTcb.isReady]) rfl rfl hptr.symm
    · simp [TaskState.isPend]
    · simp
    · simp [hoff]
    · simp [TaskState.isDly]
  · rw [Queues.enterWheelUnless, if_neg hzero, OsTcb.blocked, if_neg hzero]
    refine .delay h hx hready ⟨hok.mem, hok.prio_lt, ?_, fun _ => ⟨rfl, rfl⟩, ?_, ?_, ?_⟩
      (by simp [OsTcb.isReady]) rfl rfl rfl fun heq => hzero (by simpa using heq)
    · simp [TaskState.isPend]
    · simp
    · simp [TaskState.isDly, eq_comm]
    · simp

/-- **`OSTaskSemPend`** -/
lemma ends_osTaskSemPend (h : Callable cfg space s t x) (timeout : Tick) (opt : BitVec 16) :
    (osTaskSemPend cfg timeout opt).Ends (Queues.exec cfg space) s (Served cfg space s) := by
  have hc := h.consistent
  have hok := hc.tcb t x h.tcb
  refine .after run_get (.ite (fun _ => ends_done hc _) fun hpos => ?_)
  refine .ite (fun _ => ends_done hc _) fun _ => ?_
  have hnesting := Nat.eq_zero_of_not_pos hpos
  obtain ⟨hready, hidle⟩ := h.ready hnesting
  have hoff := hok.spoke_of_isReady hready
  refine .after (run_cur_of h.osTcbCurPtr) ?_
  refine .after (run_tcb_of h.tcb) (.ite (fun _ => ?_) fun _ => ?_)
  · refine .after (run_modifyTcb_of h.tcb _) (.ret (.done (.same hc h.tcb ?_)))
    exact ⟨rfl, rfl, rfl, rfl, rfl, rfl, rfl⟩
  · refine .ite (fun _ => ends_done hc _) fun _ => .ite (fun _ => ends_done hc _) fun hlock => ?_
    have hrun := run_osPend_none hok.mem h.osTcbCurPtr h.tcb
      (fun i hi => by simp [(hc.mem_spoke h.tcb).mp hi] at hoff)
      (fun i a ha => by
        obtain ⟨z, hz, -⟩ := hc.of_mem_spoke ha
        simp [hz])
      ((hc.mem_rdy h.tcb).mpr ⟨hready, rfl⟩) cfg .taskSem timeout
    have hleads := leads_pendSelf hc h.tcb hready timeout
    refine .after hrun (.ret (.part hleads hidle hnesting ?_ trivial))
    simpa using hlock

/-- **`OSTaskSemPendAbort`** -/
lemma ends_osTaskSemPendAbort (h : Consistent cfg space s) (pTcb : Ptr)
    (htcb : ∀ t, pTcb = some t → s.shared.tcb t ≠ none) (opt : BitVec 16) :
    (osTaskSemPendAbort pTcb opt ts).Ends (Queues.exec cfg space) s (Served cfg space s) := by
  refine .after run_get (.ite (fun _ => ends_done h _) fun _ => ?_)
  refine .ite (fun _ => ends_done h _) fun _ => ?_
  cases pTcb with
  | none => exact ends_done h _
  | some t =>
      obtain ⟨x, hx⟩ := Option.ne_none_iff_exists'.mp (htcb t rfl)
      refine .ite (fun _ => ends_done h _) fun _ => .after (run_tcb_of hx) ?_
      exact .ite (fun _ => ends_done h _) fun _ => .ret (.of_leads (.refl h) (htcb t rfl))

/-- `OSTaskSemPendAbort`, from `OS_CRITICAL_ENTER()` on, for a task that does not wait for another
object. -/
lemma ends_taskSemPendAbort (h : Consistent cfg space s) (hx : s.shared.tcb t = some x)
    (hon : x.pendOn ≠ .sem) (opt : BitVec 16) :
    (taskSemPendAbort t opt ts).Ends (Queues.exec cfg space) s (Mild cfg space s) := by
  by_cases hpend : x.taskState.isPend = true
  · have hon' : x.pendOn = .taskSem := by
      have hne := (h.tcb t x hx).pend.mp hpend
      cases hcase : x.pendOn <;> simp_all
    have hrun := (h.isWaiting hx (OsTcb.not_isReady_of_isPend hpend)).run_osPendAbort
      h.spoke.nodup ts none hpend fun _ => (h.tcb t x hx).free (by simp [hon'])
    exact .after hrun (.ret (.schedUnless (.release h hx hpend OsTcb.freed_released)))
  · have hrun : (osPendAbort none t ts).run (Queues.exec cfg space) s = some ((), s) := by
      cases hstate : x.taskState <;> simp_all [osPendAbort, TaskState.isPend]
    exact .after hrun (.ret (.schedUnless (.refl h)))

/-- The list of a semaphore has the `OS_PEND_DATA` of a task that waits for nothing. -/
def Strays (space : Space) (s : Queues) : Prop :=
  ∃ o k d t x, o ∈ space.sems ∧ o ∈ s.listed ∧ s.shared.sem o = some k ∧ k.type = .sem
    ∧ d ∈ s.pend o ∧ s.shared.pendData d = some ⟨t, o⟩ ∧ s.shared.tcb t = some x
    ∧ x.pendOn = .nothing

/-- `OSTaskSemPendAbort`, from `OS_CRITICAL_ENTER()` on, for a task that waits for a semaphore of
the application: the task stays in the list of that one. -/
lemma ends_taskSemPendAbort_other (h : Consistent cfg space s) (hx : s.shared.tcb t = some x)
    (hsem : x.pendOn = .sem) (opt : BitVec 16) :
    (taskSemPendAbort t opt ts).Ends (Queues.exec cfg space) s fun _ s' => Strays space s' := by
  have hok := h.tcb t x hx
  have hpend : x.taskState.isPend = true := hok.pend.mpr (by simp [hsem])
  have hrun := (h.isWaiting hx (OsTcb.not_isReady_of_isPend hpend)).run_osPendAbort_none ts hpend
  obtain ⟨d, o, hptr, -, he⟩ := hok.entry hsem
  have hd := h.mem_pend_of_entry hx hptr he
  have hlisted := (h.waiting o (List.ne_nil_of_mem hd)).1
  obtain ⟨ho, k, hk, htype⟩ := (h.listed o).mp hlisted
  obtain ⟨hshared, -⟩ := Leads.release_tcb s t none (x.strayed ts)
  refine .after hrun (.ret ⟨o, k, d, t, x.strayed ts, ho, ?_, by rwa [hshared], htype, ?_,
    by rwa [hshared], by rw [hshared, Queues.setTcb_tcb_self], rfl⟩)
  · rwa [release_listed]
  · unfold Queues.release
    split_ifs <;> exact hd

/-- `OS_TaskSemPost`, where the task does not wait for its own semaphore. -/
lemma ends_taskSemSignal (h : Leads cfg space ∅ s s') (hx : s'.shared.tcb t = some x) :
    (taskSemSignal t).Ends (Queues.exec cfg space) s' (Mild cfg space s) := by
  refine .after (run_tcb_of hx) (.ite (fun _ => .ret (Mild.done h)) fun _ => ?_)
  refine .after (run_modifyTcb_of hx _) (.ret (Mild.done (h.trans ?_)))
  exact .same h.consistent hx ⟨rfl, rfl, rfl, rfl, rfl, rfl, rfl⟩

/-- `OS_TaskSemPost` -/
lemma ends_taskSemPost (h : Consistent cfg space s) (hx : s.shared.tcb t = some x)
    (opt : BitVec 16) :
    (taskSemPost t opt ts).Ends (Queues.exec cfg space) s (Mild cfg space s) := by
  have hsame : OsTcb.Same x (x.stamp ts) := ⟨rfl, rfl, rfl, rfl, rfl, rfl, rfl⟩
  have hstamp : Leads cfg space ∅ s (s.setTcb t (x.stamp ts)) := .same h hx hsame
  have hx' := s.setTcb_tcb_self t (x.stamp ts)
  have hsignal := ends_taskSemSignal hstamp hx'
  -- where the task waits, it may wait for its own semaphore
  have hpost : (x.stamp ts).taskState.isPend = true →
      (if (x.stamp ts).pendOn = .taskSem then do
        osPost none t ts
        return schedUnless opt ⟨.none, (x.stamp ts).semCtr.toNat, none⟩
      else taskSemSignal t).Ends (Queues.exec cfg space) (s.setTcb t (x.stamp ts))
        (Mild cfg space s) := by
    intro hpend
    refine .ite (fun hon => ?_) fun _ => hsignal
    have hc := hstamp.consistent
    have hrun := (hc.isWaiting hx' (OsTcb.not_isReady_of_isPend hpend)).run_osPost
      hc.spoke.nodup ts none hpend fun _ => (hc.tcb t _ hx').free (by rw [hon]; decide)
    refine .after hrun (.ret (Mild.schedUnless (hstamp.trans ?_)))
    exact .release hc hx' hpend OsTcb.freed_released
  refine .after (run_modifyTcb_of hx _) ?_
  refine .after (run_tcb_of hx') ?_
  cases hstate : x.taskState with
  | rdy | dly | suspended | dlySuspended => simpa [hstate] using hsignal
  | pend | pendTimeout | pendSuspended | pendTimeoutSuspended =>
      simpa [hstate] using hpost (by simp [hstate, TaskState.isPend])

/-- The task that a pointer names, the current one if it is null. -/
lemma require_task (h : Callable cfg space s t x) (pTcb : Ptr)
    (htcb : ∀ u, pTcb = some u → s.shared.tcb u ≠ none) :
    ∃ u y, (require (pTcb.or s.shared.osTcbCurPtr)).run (Queues.exec cfg space) s = some (u, s)
      ∧ s.shared.tcb u = some y ∧ (u = t ∨ pTcb = some u) := by
  cases pTcb with
  | none => exact ⟨t, x, by rw [h.osTcbCurPtr]; rfl, h.tcb, .inl rfl⟩
  | some u =>
      obtain ⟨y, hy⟩ := Option.ne_none_iff_exists'.mp (htcb u rfl)
      exact ⟨u, y, rfl, hy, .inr rfl⟩

/-- `OSTaskSemPost`, to a task that is given. -/
lemma ends_osTaskSemPost_some (h : Consistent cfg space s) (hu : s.shared.tcb u ≠ none)
    (opt : BitVec 16) (ts : ℕ) :
    (osTaskSemPost (some u) opt ts).Ends (Queues.exec cfg space) s (Mild cfg space s) := by
  obtain ⟨y, hy⟩ := Option.ne_none_iff_exists'.mp hu
  refine .ite (fun _ => .ret (.done (.refl h))) fun _ => .after run_get (.after rfl ?_)
  exact ends_taskSemPost h hy opt

/-- **`OSTaskSemPost`** -/
lemma ends_osTaskSemPost (h : Callable cfg space s t x) (pTcb : Ptr)
    (htcb : ∀ u, pTcb = some u → s.shared.tcb u ≠ none) (opt : BitVec 16) (ts : ℕ) :
    (osTaskSemPost pTcb opt ts).Ends (Queues.exec cfg space) s (Mild cfg space s) := by
  obtain ⟨u, y, hrun, hy, -⟩ := require_task h pTcb htcb
  refine .ite (fun _ => .ret (.done (.refl h.consistent))) fun _ => .after run_get (.after hrun ?_)
  exact ends_taskSemPost h.consistent hy opt

/-- **`OSTaskSemSet`** -/
lemma ends_osTaskSemSet (h : Callable cfg space s t x) (pTcb : Ptr)
    (htcb : ∀ u, pTcb = some u → s.shared.tcb u ≠ none) (cnt : SemCtr) :
    (osTaskSemSet pTcb cnt).Ends (Queues.exec cfg space) s (Served cfg space s) := by
  obtain ⟨u, y, hrun, hy, -⟩ := require_task h pTcb htcb
  refine .after run_get (.ite (fun _ => ends_done h.consistent _) fun _ => .after hrun ?_)
  refine .after (run_tcb_of hy) ?_
  refine .after (run_modifyTcb_of hy _) (.ret (.done (.same h.consistent hy ?_)))
  exact ⟨rfl, rfl, rfl, rfl, rfl, rfl, rfl⟩

/-- **`OSTaskTimeQuantaSet`** -/
lemma ends_osTaskTimeQuantaSet (h : Callable cfg space s t x) (pTcb : Ptr)
    (htcb : ∀ u, pTcb = some u → s.shared.tcb u ≠ none) (timeQuanta : Tick) :
    (osTaskTimeQuantaSet pTcb timeQuanta).Ends (Queues.exec cfg space) s (Served cfg space s) := by
  obtain ⟨u, y, hrun, hy, -⟩ := require_task h pTcb htcb
  refine .after run_get (.ite (fun _ => ends_done h.consistent _) fun _ => .after hrun ?_)
  refine .after (run_modifyTcb_of hy _) (.ret (.done (.same h.consistent hy ?_)))
  exact ⟨rfl, rfl, rfl, rfl, rfl, rfl, rfl⟩

/-- A task is suspended, or is suspended no longer, and stays in the list it is in. -/
lemma leads_restate (h : Consistent cfg space s) (hx : s.shared.tcb t = some x)
    (taskState : TaskState) (suspendCtr : BitVec 8)
    (hpend : taskState.isPend = x.taskState.isPend) (hdly : taskState.isDly = x.taskState.isDly)
    (hready : (x.toState taskState).isReady = x.isReady) :
    Leads cfg space ∅ s
      (s.setTcb t { x with taskState := taskState, suspendCtr := suspendCtr }) := by
  have hok := h.tcb t x hx
  refine .of_leaves (.setTcb h hx ?_ hready rfl ?_ rfl (fun _ => rfl) rfl) hx rfl ?_
  · constructor
    case mem => exact hok.mem
    case prio_lt => exact hok.prio_lt
    case pend => rw [hpend, hok.pend]
    case free => exact hok.free
    case entry => exact hok.entry
    case spoke => exact fun i hi => ⟨(hok.spoke i hi).1, hdly.trans (hok.spoke i hi).2⟩
    case timed =>
      rw [hpend, hdly]
      exact hok.timed
  · simp [OsTcb.isDelayed, hpend, hdly]
  · simp [OsTcb.isLost, hdly]

/-- `OS_TaskSuspend` -/
lemma ends_taskSuspend (h : Consistent cfg space s) (hx : s.shared.tcb t = some x)
    (hidle : t ≠ cfg.osIdleTaskTcb) (hcur : s.shared.osTcbCurPtr = some t →
      s.shared.osIntNestingCtr = 0 ∧ s.shared.osSchedLockNestingCtr = 0) :
    (taskSuspend t).Ends (Queues.exec cfg space) s (Served cfg space s) := by
  refine .after (run_tcb_of hx) ?_
  cases hstate : x.taskState with
  | rdy =>
      have hok := h.tcb t x hx
      have hready : x.isReady = true := by simp [OsTcb.isReady, hstate]
      obtain ⟨hon, hptr, hentries⟩ := hok.free_of_isReady hready
      have hoff := hok.spoke_of_isReady hready
      have hleads : Leads cfg space {t} s
          ((s.leaveRdy t).setTcb t { x with taskState := .suspended, suspendCtr := 1 }) := by
        refine .part h hx hready ⟨hok.mem, hok.prio_lt, ?_, fun _ => ⟨hptr, hentries⟩, ?_, ?_, ?_⟩
          (by simp [OsTcb.isReady]) rfl rfl rfl
        · simp [hon, TaskState.isPend]
        · simp [hon]
        · simp [hoff]
        · simp [TaskState.isDly]
      refine .after (run_modifyTcb_of hx _) ?_
      refine .after (run_osRdyListRemoveOf (Queues.setTcb_tcb_self _ t _) ?_) (.ret ?_)
      · exact (h.mem_rdy hx).mpr ⟨hready, rfl⟩
      refine ⟨{t}, hleads, fun hmem => hidle (Set.mem_singleton_iff.mp hmem).symm, trivial,
        fun u hu hcur' => ?_⟩
      obtain rfl := Set.mem_singleton_iff.mp hu
      exact ⟨(hcur hcur').1, (hcur hcur').2, _, rfl⟩
  | dly | pend | pendTimeout =>
      refine .after (run_modifyTcb_of hx _) (.ret (.ret ?_))
      refine leads_restate h hx _ 1 ?_ ?_ ?_ <;>
        simp [hstate, TaskState.isPend, TaskState.isDly, OsTcb.isReady]
  | suspended | dlySuspended | pendSuspended | pendTimeoutSuspended =>
      refine .after (run_modifyTcb_of hx _) (.ret (.ret (.same h hx ?_)))
      exact ⟨rfl, rfl, rfl, rfl, rfl, rfl, rfl⟩

/-- **`OSTaskSuspend`** -/
lemma ends_osTaskSuspend (h : Callable cfg space s t x) (pTcb : Ptr)
    (htcb : ∀ u, pTcb = some u → s.shared.tcb u ≠ none) :
    (osTaskSuspend cfg pTcb).Ends (Queues.exec cfg space) s (Served cfg space s) := by
  obtain ⟨u, y, hrun, hy, hu⟩ := require_task h pTcb htcb
  refine .after run_get (.ite (fun _ => ends_done h.consistent _) fun hpos => ?_)
  refine .ite (fun _ => ends_done h.consistent _) fun hidle => .after hrun ?_
  refine .ite (fun _ => ends_done h.consistent _) fun hlock => ?_
  have hnesting := Nat.eq_zero_of_not_pos hpos
  refine ends_taskSuspend h.consistent hy ?_ fun hcur => ⟨hnesting, ?_⟩
  · rcases hu with rfl | rfl
    · exact (h.ready hnesting).2
    · exact fun heq => hidle (congrArg some heq)
  · exact Nat.eq_zero_of_not_pos fun hpos => hlock ⟨hcur.symm, hpos⟩

/-- A task that is suspended, and nothing else, is put back into its ready list. -/
lemma run_resume (h : Consistent cfg space s) (hx : s.shared.tcb t = some x)
    (hstate : x.taskState = .suspended) (suspendCtr : BitVec 8) :
    (osTaskRdy t).run (Queues.exec cfg space)
        (s.setTcb t { x with taskState := .rdy, suspendCtr := suspendCtr })
      = some ((), s.release t none { x with taskState := .rdy, suspendCtr := suspendCtr })
    ∧ Leads cfg space ∅ s
        (s.release t none { x with taskState := .rdy, suspendCtr := suspendCtr }) := by
  have hok := h.tcb t x hx
  have hoff : x.tickSpokePtr = none := by
    cases hi : x.tickSpokePtr with
    | none => rfl
    | some i => simpa [hstate, TaskState.isDly] using (hok.spoke i hi).2
  have hon : x.pendOn = .nothing := by
    by_contra hne
    simpa [hstate, TaskState.isPend] using hok.pend.mpr hne
  obtain ⟨hptr, hentries⟩ := hok.free (by simp [hon])
  have hwait := (h.isWaiting hx (by simp [OsTcb.isReady, hstate])).setTcb
    (y := { x with taskState := .rdy, suspendCtr := suspendCtr }) rfl rfl rfl rfl
  refine ⟨?_, .join h hx hstate ⟨rfl, .inl rfl, hon, hoff, hptr, hentries⟩⟩
  rw [hwait.run_osTaskRdy rfl]
  simp [Queues.release, OsTcb.offWheel, hoff]

/-- `OS_TaskResume` -/
lemma ends_taskResume (h : Consistent cfg space s) (hx : s.shared.tcb t = some x) :
    (taskResume t).Ends (Queues.exec cfg space) s (Served cfg space s) := by
  refine .after (run_tcb_of hx) ?_
  cases hstate : x.taskState with
  | rdy | dly | pend | pendTimeout => exact .ret (.ret (.refl h))
  | suspended =>
      refine .after (run_modifyTcb_of hx _) (.ite (fun hzero => ?_) fun hmore => .ret (.ret ?_))
      · obtain ⟨hrun, hleads⟩ := run_resume h hx hstate (x.suspendCtr - 1)
        rw [if_pos hzero]
        exact .after hrun (.ret (.ret hleads))
      · rw [if_neg hmore]
        exact .same h hx ⟨rfl, rfl, rfl, rfl, rfl, rfl, rfl⟩
  | dlySuspended | pendSuspended | pendTimeoutSuspended =>
      refine .after (run_modifyTcb_of hx _) (.ret (.ret ?_))
      refine leads_restate h hx _ _ ?_ ?_ ?_ <;>
        split_ifs <;> simp [hstate, TaskState.isPend, TaskState.isDly, OsTcb.isReady]

/-- **`OSTaskResume`** -/
lemma ends_osTaskResume (h : Consistent cfg space s) (pTcb : Ptr)
    (htcb : ∀ u, pTcb = some u → s.shared.tcb u ≠ none) :
    (osTaskResume pTcb).Ends (Queues.exec cfg space) s (Served cfg space s) := by
  refine .after run_get (.ite (fun _ => ends_done h _) fun _ => ?_)
  cases pTcb with
  | none => exact ends_done h _
  | some t =>
      obtain ⟨x, hx⟩ := Option.ne_none_iff_exists'.mp (htcb t rfl)
      exact .ite (fun _ => ends_done h _) fun _ => ends_taskResume h hx

/-- **`OS_SchedRoundRobin`**, for the list of a priority. -/
lemma ends_osSchedRoundRobin (h : Consistent cfg space s) (hp : p < cfg.prioMax) :
    (osSchedRoundRobin cfg p).Ends (Queues.exec cfg space) s fun _ s' =>
      Leads cfg space ∅ s s' := by
  refine .command (given_of hp _) ?_
  cases hL : s.rdy p with
  | nil => exact .ret (.refl h)
  | cons t L =>
      obtain ⟨x, hx, -⟩ := h.of_mem_rdy (hL ▸ List.mem_cons_self)
      refine .ite (fun _ => .ret (.refl h)) fun _ => .after (run_modifyTcb_of hx _) ?_
      have hleads : Leads cfg space ∅ s (s.setTcb t { x with timeQuantaCtr :=
          if x.timeQuantaCtr > 0 then x.timeQuantaCtr - 1 else x.timeQuantaCtr }) :=
        .same h hx ⟨rfl, rfl, rfl, rfl, rfl, rfl, rfl⟩
      refine .after (run_tcb_of (Queues.setTcb_tcb_self _ t _)) (.command (given_of hp _) ?_)
      refine .after run_get (.ite (fun _ => .ret hleads) fun _ => ?_)
      refine .ite (fun _ => .ret hleads) fun _ => ?_
      refine .ite (fun _ => .ret hleads) fun _ => .command (given_of hp _) ?_
      refine (ends_rotate hleads.consistent hp ?_).mono fun _ _ hs => hleads.trans hs
      simp [hL]

/-- **`OSTimeTick`** -/
lemma ends_osTimeTick (h : Consistent cfg space s) (htick : s.shared.tcb cfg.osTickTaskTcb ≠ none)
    (htmr : s.shared.tcb cfg.osTmrTaskTcb ≠ none) (tsTick tsTmr : ℕ) :
    (osTimeTick cfg tsTick tsTmr).Ends (Queues.exec cfg space) s (Served cfg space s) :=
  (ends_osTaskSemPost_some h htick osOptPostNone tsTick).bind fun _ _ hs =>
    .ret (.of_leads hs.1 (hs.1.tcb_ne_none htmr))

/-- What there is to see to before a part: what is created is new. -/
def Part.Valid (tcb : Mem OsTcb) : Part → Prop
  | .taskCreate pTcb _ _ _ => tcb pTcb = none
  | _ => True

/-- A part aborts a wait for another object than it was told: `OSTaskSemPendAbort` found that the
task waits for its own semaphore, and when it disables the interrupts again the task waits for a
semaphore of the application. -/
def Part.AbortsOther (tcb : Mem OsTcb) : Part → Prop
  | .taskSemPendAbort pTcb _ _ => ∃ x, tcb pTcb = some x ∧ x.pendOn = .sem
  | _ => False

/-- **Every part of a service ends**, unless it aborts another wait. -/
lemma Part.ends {q : Part} (h : Consistent cfg space s) (hp : s.shared.osPrioCur < cfg.prioMax)
    (hq : q.Ok cfg space s.shared.tcb) (hvalid : q.Valid s.shared.tcb)
    (hown : ¬ q.AbortsOther s.shared.tcb) :
    (q.run cfg).Ends (Queues.exec cfg space) s (Mild cfg space s) := by
  have hsame : ∀ q' : Part, q'.Ok cfg space s.shared.tcb → Mild cfg space s (.more q') s :=
    fun _ hq' => ⟨.refl h, hq'⟩
  cases q with
  | roundRobinYield => exact ends_roundRobinYield h hp
  | taskCreate pTcb prio timeQuanta timeQuantaCtr =>
      exact (ends_taskCreate h hq.1 hvalid hq.2 timeQuanta timeQuantaCtr).mono
        fun _ _ hs => hs.1.mild
  | taskSemPendAbort pTcb opt ts =>
      obtain ⟨x, hx⟩ := Option.ne_none_iff_exists'.mp hq
      exact ends_taskSemPendAbort h hx (fun hsem => hown ⟨x, hx, hsem⟩) opt
  | tickRoundRobin ts =>
      exact .after run_get (.ite (fun _ => .ret (hsame _ hq)) fun _ => .ret (hsame _ ⟨hp, hq⟩))
  | tickRotate prio ts =>
      exact (ends_osSchedRoundRobin h hq.1).bind fun _ _ hs =>
        .ret ⟨hs, hs.tcb_ne_none hq.2⟩
  | tickTmrRead ts => exact .after run_get (.ret (hsame _ hq))
  | tickTmrWrite osTmrUpdateCtr ts =>
      exact .after (run_modify _) (.ret ⟨.setVars h _ rfl rfl rfl rfl rfl fun _ => rfl, hq⟩)
  | tickTmrTest ts =>
      exact .after run_get (.ite (fun _ => .ret (hsame _ hq)) fun _ => .ret (.done (.refl h)))
  | tickTmrLoad ts =>
      exact .after (run_modify _) (.ret ⟨.setVars h _ rfl rfl rfl rfl rfl fun _ => rfl, hq⟩)
  | tickTmrPost ts =>
      exact (ends_osTaskSemPost_some h hq osOptPostNone ts).bind fun _ _ hs => .ret (.done hs.1)

end Rules

end Wgs.Ucos
