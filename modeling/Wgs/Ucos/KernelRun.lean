import Wgs.Ucos.System

/-!
Runs of the kernel from `OSInit` on, with the lists of the sources.

A run serves the events one after the other, each of which can happen when it does.  As long as no
`OSTaskSemPendAbort` aborts a wait for another object, no event of a run faults, and what holds
between the events of a run on plain lists (`Sound`) holds here (through `Refines`).  The first such
abort leaves a list that has more than the `OS_TCB`s say (`kernel_lists_iff`).
-/

namespace Wgs.Ucos

open Foundation Ucos.Kernel

/-- The memory before `OSInit`: the objects that the application provides, and the fields of the
`OS_TCB`s, the semaphores and the `OS_PEND_DATA` that the lists use.  No semaphore was created. -/
structure Memory (space : Space) where
  sem : Mem OsSem
  pendData : Mem OsPendData
  rdyLinks : Links
  tickLinks : Links
  tickRemain : Mem Tick
  pendLists : Mem OsPendList
  pendLinks : Links
  sem_alloc : ∀ o ∈ space.sems, sem o ≠ none ∧ pendLists o ≠ none
  sem_type : ∀ o k, sem o = some k → k.type ≠ .sem
  tcb_alloc : ∀ t ∈ space.tcbs, rdyLinks t ≠ none ∧ tickLinks t ≠ none ∧ tickRemain t ≠ none
  frame_alloc : ∀ d ∈ space.frames, pendData d ≠ none ∧ pendLinks d ≠ none

/-- The kernel, and how far its tasks and its interrupt routines are. -/
structure KernelState (cfg : Config) where
  machine : Machine cfg
  phase : Place → Phase

variable {cfg : Config} {space : Space}

/-- What `OSInit` makes of the lists. -/
def Machine.osInit (cfg : Config) (mem : Memory space) : Machine cfg where
  shared := Ucos.osInit cfg mem.sem mem.pendData
  rdy := ⟨osPrioInit cfg, osRdyListInit cfg, mem.rdyLinks⟩
  pend := ⟨mem.pendLists, mem.pendLinks⟩
  tick := ⟨osTickListInit cfg, mem.tickLinks, mem.tickRemain⟩

/-- What `OSInit` makes of the lists, as plain lists. -/
def Queues.osInit (cfg : Config) (mem : Memory space) : Queues where
  shared := Ucos.osInit cfg mem.sem mem.pendData
  rdy _ := []
  pend _ := []
  spoke _ := []
  listed := ∅

lemma refines_osInit (mem : Memory space) :
    Refines space (Machine.osInit cfg mem) (Queues.osInit cfg mem) := by
  have hfamily : ∀ m : Links, LinkFamily m fun _ : ℕ => ([] : List ℕ) := fun m =>
    ⟨fun _ => by simp [Mem.Holds], fun _ => List.nodup_nil, fun _ _ _ => List.disjoint_nil_left _⟩
  constructor
  case shared => rfl
  case rdy =>
    have hnone : {p | (Queues.osInit cfg mem).rdy p ≠ []} = ∅ := by simp [Queues.osInit]
    rw [hnone]
    refine ⟨hfamily _, fun t ht => (mem.tcb_alloc t ht).1, ?_, fun p hp => ?_, fun _ _ => rfl,
      .init⟩
    · simp [Machine.osInit, osRdyListInit]
    · simp [Machine.osInit, Queues.osInit, osRdyListInit, hp]
  case rdy_mem => simp [Queues.osInit]
  case pend =>
    exact ⟨hfamily _, fun d hd => (mem.frame_alloc d hd).2, fun o ho => (mem.sem_alloc o ho).2,
      fun o ho => absurd ho (Set.notMem_empty o)⟩
  case pend_length => simp [Queues.osInit]
  case tick =>
    refine ⟨hfamily _, fun t ht => (mem.tcb_alloc t ht).2.1,
      fun t ht => (mem.tcb_alloc t ht).2.2, ?_, fun i hi => ⟨0, ?_⟩, fun _ _ => rfl⟩
    · simp [Machine.osInit, osTickListInit]
    · simp [Machine.osInit, Queues.osInit, osTickListInit, hi]
  case tick_mem => simp [Queues.osInit]

lemma sound_osInit (mem : Memory space) :
    Sound cfg space (Queues.osInit cfg mem) fun _ => .app := by
  have hplaced : ∀ place : ℕ → Option ℕ, (∀ a, place a = none) →
      Placed (fun _ => ([] : List ℕ)) place := fun place hnone => Placed.empty.congr hnone
  refine ⟨?_, by simp [Settled, Queues.osInit], fun _ => trivial,
    by simp [Queues.osInit, Ucos.osInit], ?_, ?_⟩
  · constructor
    case tcb => simp [Queues.osInit, Ucos.osInit]
    case rdy => exact hplaced _ fun _ => rfl
    case spoke => exact hplaced _ fun _ => rfl
    case pend =>
      refine hplaced _ fun d => ?_
      simp [Shared.pendPlace, Queues.osInit, Ucos.osInit]
    case tick_sorted => simp [Queues.osInit]
    case prio_sorted => simp [Queues.osInit]
    case sem_alloc => exact fun o ho => (mem.sem_alloc o ho).1
    case pendData_alloc => exact fun d hd => (mem.frame_alloc d hd).1
    case listed =>
      refine fun o => ⟨fun ho => absurd ho (Set.notMem_empty o), ?_⟩
      rintro ⟨-, k, hk, htype⟩
      exact absurd htype (mem.sem_type o k hk)
    case waiting => simp [Queues.osInit]
  · simp [Queues.osInit, Ucos.osInit]
  · exact fun _ => ⟨rfl, rfl, rfl⟩

namespace KernelState

/-- What `OSInit` leaves: every task that will be created is in its own code. -/
def osInit (cfg : Config) (mem : Memory space) : KernelState cfg :=
  ⟨Machine.osInit cfg mem, fun _ => .app⟩

/-- An event is executed on the lists of the sources. -/
def step (e : Event) (s : KernelState cfg) : Option (Option Ret × KernelState cfg) :=
  ((e.run cfg s.phase).run Machine.exec s.machine).map fun r => (r.1.1, ⟨r.2, r.1.2⟩)

/-- An event can happen. -/
def Enabled (space : Space) (s : KernelState cfg) (e : Event) : Prop :=
  e.Enabled cfg space s.machine.shared s.phase

/-- An event aborts a wait for another object than it was told. -/
def AbortsOther (s : KernelState cfg) (e : Event) : Prop := e.AbortsOther s.machine.shared s.phase

/-- An event that can happen is executed, and it does not fault. -/
def Next (space : Space) (s : KernelState cfg) (e : Event) (s' : KernelState cfg) : Prop :=
  s.Enabled space e ∧ ∃ r, s.step e = some (r, s')

/-- A step in which what `OSTaskSemPendAbort` has checked is true still. -/
def CheckedNext (space : Space) (s : KernelState cfg) (e : Event) (s' : KernelState cfg) : Prop :=
  Next space s e s' ∧ ¬ s.AbortsOther e

/-- Plain lists that are those of the kernel, between the events of a run. -/
structure Models (space : Space) (s : KernelState cfg) (q : Queues) : Prop where
  refines : Refines space s.machine q
  sound : Sound cfg space q s.phase

variable {mem : Memory space} {s s' : KernelState cfg} {q : Queues} {e : Event} {es : List Event}

/-- **An event is served**, and plain lists follow it. -/
lemma Models.step (h : Models space s q) (he : s.Enabled space e) (hown : ¬ s.AbortsOther e) :
    ∃ r s' q', s.step e = some (r, s') ∧ Models space s' q' ∧ Follows cfg e q q' := by
  rw [Enabled, h.refines.shared] at he
  rw [AbortsOther, h.refines.shared] at hown
  obtain ⟨⟨r, phase⟩, q', hrun, hsound, hfollows⟩ := h.sound.step e he hown
  obtain ⟨m, hm, hrefines⟩ := machine_simulates.run _ h.refines hrun
  exact ⟨r, ⟨m, phase⟩, q', by simp [KernelState.step, hm], ⟨hrefines, hsound⟩, hfollows⟩

lemma Models.next (h : Models space s q) (hs : CheckedNext space s e s') :
    ∃ q', Models space s' q' ∧ Follows cfg e q q' := by
  obtain ⟨⟨he, r, hr⟩, hown⟩ := hs
  obtain ⟨r', t, q', ht, hmodels, hfollows⟩ := h.step he hown
  obtain ⟨-, rfl⟩ := Prod.mk.inj (Option.some_inj.mp (hr.symm.trans ht))
  exact ⟨q', hmodels, hfollows⟩

/-- **In a run there are always plain lists that are those of the kernel.** -/
lemma exists_models (h : Reaches (CheckedNext space) (KernelState.osInit cfg mem) es s) :
    ∃ q, Models space s q :=
  h.invariant (I := fun s => ∃ q, Models space s q)
    ⟨_, refines_osInit mem, sound_osInit mem⟩ fun _ _ _ ⟨_, hq⟩ hn => by
      obtain ⟨q', hq', -⟩ := hq.next hn
      exact ⟨q', hq'⟩

/-- **A wait for another object is aborted**: the event is served, but a list has the `OS_PEND_DATA`
of a task that waits for nothing. -/
lemma Models.strays (h : Models space s q) (he : s.Enabled space e) (hother : s.AbortsOther e) :
    ∃ r s' q', s.step e = some (r, s') ∧ Refines space s'.machine q' ∧ Strays space q' := by
  rw [AbortsOther, h.refines.shared] at hother
  cases e with
  | more =>
      obtain ⟨a, p, ha, hphase, hp⟩ := hother
      cases p with
      | taskSemPendAbort t opt ts =>
          obtain ⟨x, hx, hsem⟩ := hp
          have hends : (Event.more.run cfg s.phase).Ends (Queues.exec cfg space) q
              fun _ q' => Strays space q' := by
            refine .after (run_here_of ha) ?_
            simp only [hphase]
            exact (ends_taskSemPendAbort_other h.sound.consistent hx hsem opt).bind
              fun _ _ hs => .ret hs
          obtain ⟨⟨r, phase⟩, q', hrun, hstrays⟩ := hends
          obtain ⟨m, hm, hrefines⟩ := machine_simulates.run _ h.refines hrun
          exact ⟨r, ⟨m, phase⟩, q', by simp [KernelState.step, hm], hrefines, hstrays⟩
      | _ => exact hp.elim
  | _ => exact hother.elim

/-- What the plain lists are when an event has been served, if it is known of them alone. -/
lemma Models.of_ends (h : Models space s q) (hs : CheckedNext space s e s') {Q : Queues → Prop}
    (hQ : (e.run cfg s.phase).Ends (Queues.exec cfg space) q fun _ q' => Q q') :
    ∃ q', Models space s' q' ∧ Q q' := by
  obtain ⟨⟨he, r, hr⟩, hown⟩ := hs
  rw [Enabled, h.refines.shared] at he
  rw [AbortsOther, h.refines.shared] at hown
  obtain ⟨⟨r', phase⟩, q', hrun, ⟨hsound, -⟩, hq'⟩ := (h.sound.step e he hown).and hQ
  obtain ⟨m, hm, hrefines⟩ := machine_simulates.run _ h.refines hrun
  have hstep : s.step e = some (r', ⟨m, phase⟩) := by simp [KernelState.step, hm]
  obtain ⟨-, rfl⟩ := Prod.mk.inj (Option.some_inj.mp (hr.symm.trans hstep))
  exact ⟨q', ⟨hrefines, hsound⟩, hq'⟩

/-- The tasks have their memory. -/
lemma mem_tcbs (h : Reaches (CheckedNext space) (KernelState.osInit cfg mem) es s) {t : ℕ}
    {x : OsTcb} (hx : s.machine.shared.tcb t = some x) : t ∈ space.tcbs := by
  obtain ⟨q, hq⟩ := exists_models h
  rw [hq.refines.shared] at hx
  exact (hq.sound.consistent.tcb t x hx).mem

/-- The state behind an event. -/
def after (s : KernelState cfg) (e : Event) : KernelState cfg := ((s.step e).map Prod.snd).getD s

/-- The events can happen one after the other, and what was checked stays true. -/
def CanServe (space : Space) : List Event → KernelState cfg → Prop
  | [], _ => True
  | e :: es, s => s.Enabled space e ∧ ¬ s.AbortsOther e ∧ CanServe space es (s.after e)

lemma next_after (h : Reaches (CheckedNext space) (KernelState.osInit cfg mem) es s)
    (he : s.Enabled space e) (hown : ¬ s.AbortsOther e) : CheckedNext space s e (s.after e) := by
  obtain ⟨q, hq⟩ := exists_models h
  obtain ⟨r, s', -, hs, -⟩ := hq.step he hown
  exact ⟨⟨he, r, by simp [after, hs]⟩, hown⟩

/-- Events that can happen are a run. -/
lemma reaches_foldl {js : List Event}
    (h : Reaches (CheckedNext space) (KernelState.osInit cfg mem) es s)
    (hs : CanServe space js s) : Reaches (CheckedNext space) s js (js.foldl after s) := by
  induction js generalizing es s with
  | nil => exact .start
  | cons e js ih =>
      have hnext := next_after h hs.1 hs.2.1
      exact Reaches.append (.step .start hnext) (ih (.step h hnext) hs.2.2)

end KernelState

open KernelState

/-! ### A run -/

/-- Room for five tasks and a semaphore. -/
def Space.five : Space where
  tcbs := {1, 2, 4, 5, 6}
  card_tcbs_lt := by decide
  sems := {10}
  frames := {20, 21}

/-- Memory that is all there, and zero. -/
def Memory.zeroed (space : Space) : Memory space where
  sem _ := some ⟨.none, 0, 0⟩
  pendData _ := some ⟨0, 0⟩
  rdyLinks _ := some ⟨(), none, none⟩
  tickLinks _ := some ⟨(), none, none⟩
  tickRemain _ := some 0
  pendLists _ := some ⟨none, none, 0⟩
  pendLinks _ := some ⟨(), none, none⟩
  sem_alloc := by simp
  sem_type := by
    rintro _ _ ⟨⟩
    decide
  tcb_alloc := by simp
  frame_alloc := by simp

/-- A task is created before the kernel runs. -/
def Event.create (t prio : ℕ) : Event :=
  .init (.osTaskCreate (some t) (some 1) prio (some 1) 0 64 0)

lemma Event.create_enabled {v : Shared} {t : ℕ} (hrunning : v.osRunning = false)
    (ht : t ∈ space.tcbs) (hnew : v.tcb t = none) (prio : ℕ) (phase : Place → Phase) :
    (Event.create t prio).Enabled cfg space v phase := by
  refine ⟨hrunning, trivial, ?_⟩
  rintro _ ⟨⟩
  exact ⟨ht, hnew⟩

/-- The kernel starts with the idle task, the tick task, three tasks of the application and a
semaphore that is not signalled. -/
def startRun : List Event :=
  [.create 1 31, .create 2 5, .create 4 3, .create 5 4, .create 6 2,
    .init (.osSemCreate (some 10) 0), .osStart]

def startState : KernelState .template :=
  startRun.foldl after (KernelState.osInit .template (.zeroed .five))

lemma reaches_startState :
    Reaches (CheckedNext .five) (KernelState.osInit .template (.zeroed .five)) startRun
      startState := by
  refine reaches_foldl .start ⟨?_, id, ?_, id, ?_, id, ?_, id, ?_, id, ?_, id, ?_, id, trivial⟩
  · exact Event.create_enabled rfl (by decide) rfl _ _
  · exact Event.create_enabled rfl (by decide) rfl _ _
  · exact Event.create_enabled rfl (by decide) rfl _ _
  · exact Event.create_enabled rfl (by decide) rfl _ _
  · exact Event.create_enabled rfl (by decide) rfl _ _
  · refine ⟨rfl, trivial, ?_⟩
    rintro _ ⟨⟩
    refine ⟨rfl, fun k hk => ?_⟩
    obtain rfl : (⟨.none, 0, 0⟩ : OsSem) = k := Option.some_inj.mp hk
    decide
  · exact ⟨rfl, Option.some_ne_none _⟩

/-- The semaphore has its memory. -/
lemma mem_sems_five : ∀ o, some 10 = some o → o ∈ Space.five.sems := by
  rintro _ ⟨⟩
  rfl

/-- An `OS_PEND_DATA` that no task of a run has is new. -/
lemma pendData_new {s : KernelState .template} {es : List Event}
    (h : Reaches (CheckedNext .five) (KernelState.osInit .template (.zeroed .five)) es s) {d : ℕ}
    (hnew : ∀ u ∈ Space.five.tcbs,
      (s.machine.shared.tcb u).bind OsTcb.pendDataTblPtr ≠ some d) (t : ℕ) (x : OsTcb)
    (hx : s.machine.shared.tcb t = some x) : x.pendDataTblPtr ≠ some d := by
  have hne := hnew t (mem_tcbs h hx)
  rwa [hx, Option.bind_some] at hne

/-- The first task is delayed for two ticks. -/
def delayRun : List Event := [.call (.osTimeDly 2 osOptTimeDly), .osSched]

def delayState : KernelState .template := delayRun.foldl after startState

lemma reaches_delayState : Reaches (CheckedNext .five) startState delayRun delayState := by
  refine reaches_foldl reaches_startState ⟨?_, id, ?_, id, trivial⟩
  · exact ⟨rfl, trivial, .task 6, rfl, by decide, rfl⟩
  · exact ⟨rfl, .task 6, .ret returned, rfl, rfl⟩

/-- A task waits for the semaphore, and another one runs. -/
def pendRun (pendData : ℕ) (timeout : Tick) : List Event :=
  [.call (.osSemPend (some 10) pendData timeout osOptPendBlocking), .osSched]

def pendState : KernelState .template := (pendRun 20 2).foldl after delayState

set_option maxRecDepth 2000 in
lemma reaches_pendState : Reaches (CheckedNext .five) delayState (pendRun 20 2) pendState := by
  have hdelay := reaches_startState.append reaches_delayState
  refine reaches_foldl hdelay ⟨?_, id, ?_, id, trivial⟩
  · exact ⟨rfl, ⟨mem_sems_five, .inl rfl, pendData_new hdelay (by decide)⟩, .task 4, rfl,
      by decide, rfl⟩
  · exact ⟨rfl, .task 4, .semPend 10, rfl, rfl⟩

/-- One task is delayed for two ticks, one waits for the semaphore for two ticks at most, and one
for five, and the tick task runs. -/
def waitRun : List Event := startRun ++ delayRun ++ pendRun 20 2 ++ pendRun 21 5

def waitState : KernelState .template := (pendRun 21 5).foldl after pendState

set_option maxRecDepth 2000 in
lemma reaches_waitState :
    Reaches (CheckedNext .five) (KernelState.osInit .template (.zeroed .five)) waitRun
      waitState := by
  have hpend := (reaches_startState.append reaches_delayState).append reaches_pendState
  refine hpend.append (reaches_foldl hpend ⟨?_, id, ?_, id, trivial⟩)
  · exact ⟨rfl, ⟨mem_sems_five, .inr rfl, pendData_new hpend (by decide)⟩, .task 5, rfl,
      by decide, rfl⟩
  · exact ⟨rfl, .task 5, .semPend 10, rfl, rfl⟩

/-! ### Every event is served -/

/-- **No event of a run of the kernel faults** as long as `OSTaskSemPendAbort` aborts no wait for
another object: whatever tasks and interrupt routines call, and whenever interrupts come, the next
event that can happen is served, be it the first abort of that kind. -/
theorem kernel_serves (cfg : Config) (space : Space) (mem : Memory space) (es : List Event)
    (s : KernelState cfg) (h : Reaches (CheckedNext space) (KernelState.osInit cfg mem) es s)
    (e : Event) (he : s.Enabled space e) : ∃ r s', s.step e = some (r, s') := by
  obtain ⟨q, hq⟩ := exists_models h
  by_cases hother : s.AbortsOther e
  · obtain ⟨r, s', -, hs, -⟩ := hq.strays he hother
    exact ⟨r, s', hs⟩
  · obtain ⟨r, s', -, hs, -⟩ := hq.step he hother
    exact ⟨r, s', hs⟩

/-- A task waits for its own semaphore, and another one is about to abort this; an interrupt routine
signals the semaphore in between. -/
def windowRun : List Event :=
  [.call (.osTaskSemPend 0 osOptPendBlocking), .osSched,
    .call (.osTaskSemPendAbort (some 6) osOptPostNoSched 7),
    .osIntEnter, .call (.osTaskSemPost (some 6) osOptPostNone 7), .osSched, .finish, .osIntExit,
    .finish]

def windowState : KernelState .template := windowRun.foldl after startState

set_option maxRecDepth 4000 in
lemma reaches_windowState : Reaches (CheckedNext .five) startState windowRun windowState := by
  refine reaches_foldl reaches_startState ⟨⟨rfl, trivial, .task 6, rfl, by decide, rfl⟩, id,
    ⟨rfl, .task 6, .taskSemPend, rfl, rfl⟩, id, ⟨rfl, ?_, .task 4, rfl, by decide, rfl⟩, id,
    ⟨rfl, by decide⟩, id, ⟨rfl, ?_, .routine 1, rfl, by decide, rfl⟩, id,
    ⟨rfl, .routine 1, .ret ⟨.none, 0, none⟩, rfl, rfl⟩, id,
    ⟨rfl, .routine 1, .ret ⟨.none, 0, none⟩, rfl, rfl⟩, id, ⟨rfl, Nat.one_pos, rfl⟩, id,
    ⟨rfl, .task 6, .taskSemPend, rfl, rfl⟩, id, trivial⟩
  all_goals
    rintro _ ⟨⟩
    exact Option.some_ne_none _

/-- The first task waits for a semaphore of the application then, and the other one goes on. -/
def strayState : KernelState .template := (pendRun 20 0).foldl after windowState

set_option maxRecDepth 4000 in
lemma reaches_strayState :
    Reaches (CheckedNext .five) (KernelState.osInit .template (.zeroed .five))
      (startRun ++ windowRun ++ pendRun 20 0) strayState := by
  have hwindow := reaches_startState.append reaches_windowState
  refine hwindow.append (reaches_foldl hwindow ⟨?_, id, ?_, id, trivial⟩)
  · exact ⟨rfl, ⟨mem_sems_five, .inl rfl, pendData_new hwindow (by decide)⟩, .task 6, rfl,
      by decide, rfl⟩
  · exact ⟨rfl, .task 6, .semPend 10, rfl, rfl⟩

set_option maxRecDepth 4000 in
/-- The wait for the semaphore of the application is aborted. -/
theorem kernel_serves_stray : strayState.AbortsOther .more
    ∧ ∃ r s', strayState.step .more = some (r, s') := by
  have hrest : strayState.phase (.task 4) = .more (.taskSemPendAbort 6 osOptPostNoSched 7) := rfl
  have hplace : strayState.machine.shared.place = some (.task 4) := rfl
  refine ⟨⟨_, _, hplace, hrest, _, rfl, rfl⟩, ?_⟩
  exact kernel_serves _ _ _ _ _ reaches_strayState _ ⟨rfl, _, _, hplace, hrest, trivial⟩

set_option maxRecDepth 4000 in
-- then the list of the semaphore has the task still, and `OSSemPendAbort` for all who wait goes
-- round in it
example : (strayState.after .more).step (.call (.osSemPendAbort (some 10) osOptPendAbortAll 7))
    = none :=
  rfl

/-! ### What the lists have -/

/-- The links of a list are in the memory: its elements in order, both ways. -/
def Linked (links : Links) (L : List ℕ) : Prop := links.Holds (chain none (Foundation.cells L) none)

/-- **The lists of the kernel have what its tasks say**: the tasks that are ready by priority, those
in the wheel by spoke in the order of their ticks, and those that wait for a semaphore in the order
of their priorities. -/
structure KernelState.ListsAgree (space : Space) (s : KernelState cfg) : Prop where
  rdy : ∀ p < cfg.prioMax, ∃ L : List ℕ, Linked s.machine.rdy.links L ∧ L.Nodup
    ∧ s.machine.rdy.osRdyList[p]? = some ⟨L.head?, L.getLast?, L.length⟩
    ∧ ∀ t, t ∈ L ↔ ∃ x, s.machine.shared.tcb t = some x ∧ x.isReady = true ∧ x.prio = p
  tick : ∀ i < cfg.tickWheelSize, ∃ (L : List ℕ) (peak : ℕ), Linked s.machine.tick.links L
    ∧ L.Nodup ∧ s.machine.tick.wheel[i]? = some ⟨L.head?, L.length, peak⟩
    ∧ L.Pairwise (fun t u => s.machine.shared.remain t ≤ s.machine.shared.remain u)
    ∧ ∀ t, t ∈ L ↔ ∃ x, s.machine.shared.tcb t = some x ∧ x.tickSpokePtr = some i
  pend : ∀ o k, o ∈ space.sems → s.machine.shared.sem o = some k → k.type = .sem →
    ∃ L : List ℕ, Linked s.machine.pend.links L ∧ L.Nodup
      ∧ s.machine.pend.lists o = some ⟨L.head?, L.getLast?, L.length⟩
      ∧ L.Pairwise (fun d e => s.machine.shared.prioKey d ≤ s.machine.shared.prioKey e)
      ∧ (∀ d, d ∈ L ↔ ∃ t x, s.machine.shared.tcb t = some x ∧ x.pendOn = .sem
        ∧ x.pendDataTblPtr = some d ∧ s.machine.shared.pendData d = some ⟨t, o⟩)
      ∧ (L ≠ [] → k.ctr = 0)

namespace KernelState

variable {s : KernelState cfg} {q : Queues}

lemma Models.listsAgree (h : Models space s q) : s.ListsAgree space := by
  have hr := h.refines
  have hc := h.sound.consistent
  constructor
  case rdy =>
    intro p hp
    rw [hr.shared]
    refine ⟨q.rdy p, hr.rdy.family.linked p, hc.rdy.nodup p, hr.rdy.list p hp,
      fun t => ⟨fun ht => hc.of_mem_rdy ht, ?_⟩⟩
    rintro ⟨x, hx, hready⟩
    exact (hc.mem_rdy hx).mpr hready
  case tick =>
    intro i hi
    obtain ⟨peak, hpeak⟩ := hr.tick.spoke i hi
    rw [hr.shared]
    refine ⟨q.spoke i, peak, hr.tick.family.linked i, hc.spoke.nodup i, hpeak, hc.tick_sorted i,
      fun t => ⟨fun ht => hc.of_mem_spoke ht, ?_⟩⟩
    rintro ⟨x, hx, hspoke⟩
    exact (hc.mem_spoke hx).mpr hspoke
  case pend =>
    intro o k ho hk htype
    rw [hr.shared] at hk ⊢
    have hlisted := hc.mem_listed ho hk htype
    refine ⟨q.pend o, hr.pend.family.linked o, hc.pend.nodup o, hr.pend.list o hlisted,
      hc.prio_sorted o, fun d => ⟨fun hd => ?_, ?_⟩, fun hne => (hc.waiting o hne).2 k hk⟩
    · obtain ⟨t, x, he, hx, hptr, hon⟩ := hc.of_mem_pend hd
      exact ⟨t, x, hx, hon, hptr, he⟩
    · rintro ⟨t, x, hx, -, hptr, he⟩
      exact hc.mem_pend_of_entry hx hptr he

/-- Where a list has the `OS_PEND_DATA` of a task that waits for nothing, the lists do not agree. -/
lemma not_listsAgree (hr : Refines space s.machine q) (hstrays : Strays space q) :
    ¬ s.ListsAgree space := by
  intro hagree
  obtain ⟨o, k, d, t, x, ho, hlisted, hk, htype, hd, he, hx, hon⟩ := hstrays
  rw [← hr.shared] at hk he hx
  obtain ⟨L, hlinked, -, hlist, -, hmem, -⟩ := hagree.pend o k ho hk htype
  -- the list that is linked there is the one of the model
  have hlist' := hr.pend.list o hlisted
  have hhead := congrArg OsPendList.headPtr (Option.some_inj.mp (hlist.symm.trans hlist'))
  obtain rfl := hlinked.cells_unique (hr.pend.family.linked o) hhead
  obtain ⟨u, y, hy, hsem, -, he'⟩ := (hmem d).mp hd
  rw [he, Option.some_inj, OsPendData.mk.injEq] at he'
  obtain ⟨rfl, -⟩ := he'
  obtain rfl := Option.some_inj.mp (hx.symm.trans hy)
  simp [hon] at hsem

end KernelState

/-- **The lists of the kernel have what its tasks say** between any two events of a run if and only
if in the whole run `OSTaskSemPendAbort` never aborts a wait for another object: what it has checked
of the task, before the interrupts were enabled again, is true still. -/
theorem kernel_lists_iff (cfg : Config) (space : Space) (mem : Memory space) (es : List Event) :
    Always (Next space) (KernelState.osInit cfg mem) (KernelState.ListsAgree space) es
    ↔ AtEvery (Next space) (KernelState.osInit cfg mem)
      (fun s e => s.Enabled space e → ¬ s.AbortsOther e) es := by
  refine always_iff_atEvery (I := fun s => ∃ q, Models space s q) (D := fun _ _ => True)
    ?start ?good ?step ?needed fun _ _ _ _ _ => trivial
  case start => exact ⟨_, refines_osInit mem, sound_osInit mem⟩
  case good =>
    rintro s ⟨q, hq⟩
    exact hq.listsAgree
  case step =>
    rintro s e s' ⟨q, hq⟩ - hown hnext
    obtain ⟨q', hq', -⟩ := hq.next ⟨hnext, hown hnext.1⟩
    exact ⟨q', hq'⟩
  case needed =>
    rintro s e ⟨q, hq⟩ - hgood henabled hother
    obtain ⟨r, s', q', hstep, hr, hstrays⟩ := hq.strays henabled hother
    exact not_listsAgree hr hstrays (hgood s' ⟨henabled, r, hstep⟩)

set_option maxRecDepth 2000 in
-- a task that is delayed and one that waits no longer than that are in one spoke, and the two that
-- wait for the semaphore are in its list
example : (waitState.machine.tick.wheel[2]?, waitState.machine.tick.wheel[5]?,
    waitState.machine.pend.lists 10, waitState.machine.rdy.osRdyList[5]?)
    = (some ⟨some 4, 2, 2⟩, some ⟨some 5, 1, 1⟩, some ⟨some 20, some 21, 2⟩,
      some ⟨some 2, some 2, 1⟩) :=
  rfl

end Wgs.Ucos
