import Wgs.Ucos.Switches

/-!
Semaphores in runs of the kernel.

`OSSemPost` gives its signal to the tasks that wait, the first of them or all, and the semaphore
counts it only if none waits (`kernel_semPost`).  `OSSemPendAbort` ends the waits of all tasks
only where its option is `OS_OPT_PEND_ABORT_ALL` and nothing else: with `OS_OPT_POST_NO_SCHED` it
ends one (`kernel_semPendAbort`).  The runs are those in which `OSTaskSemPendAbort` aborts no wait
for another object.
-/

namespace Wgs.Ucos

open Foundation KernelState

variable {cfg : Config} {space : Space}

namespace KernelState

variable {mem : Memory space} {s s' : KernelState cfg} {q : Queues} {es : List Event} {o t : ℕ}

/-- The list of the semaphore `o` is linked through the `OS_PEND_DATA` of `L`. -/
def Waiters (s : KernelState cfg) (o : ℕ) (L : List ℕ) : Prop :=
  Linked s.machine.pend.links L
    ∧ s.machine.pend.lists o = some ⟨L.head?, L.getLast?, L.length⟩

lemma Models.waiters (h : Models space s q) {k : OsSem} (ho : o ∈ space.sems)
    (hk : q.shared.sem o = some k) (htype : k.type = .sem) : s.Waiters o (q.pend o) :=
  ⟨h.refines.pend.family.linked o,
    h.refines.pend.list o (h.sound.consistent.mem_listed ho hk htype)⟩

/-- The tasks whose `OS_PEND_DATA` is in `D` are released with a status, and no others. -/
def Releases (s s' : KernelState cfg) (pendStatus : PendStatus) (ts : ℕ) (D : List ℕ) : Prop :=
  s'.machine.shared.sem = s.machine.shared.sem
    ∧ ∀ t, s'.machine.shared.tcb t = (s.machine.shared.tcb t).map fun x =>
      if ∃ d ∈ D, x.pendDataTblPtr = some d then x.released pendStatus ts else x

/-- The first `n` of those who wait are released. -/
lemma Models.releases (h : Models space s q) {q' : Queues} (h' : Models space s' q') {k : OsSem}
    (ho : o ∈ space.sems) (hk : q.shared.sem o = some k) (htype : k.type = .sem)
    {pendStatus : PendStatus} {ts n : ℕ} (hreleased : Released pendStatus ts o n q q') :
    s'.Waiters o ((q.pend o).drop n) ∧ s.Releases s' pendStatus ts ((q.pend o).take n) := by
  refine ⟨?_, ?_, fun t => ?_⟩
  · rw [← hreleased.pend]
    exact h'.waiters ho ((congrFun hreleased.sem o).trans hk) htype
  · rw [h.refines.shared, h'.refines.shared, hreleased.sem]
  · rw [h.refines.shared, h'.refines.shared, hreleased.tcb t]

end KernelState

/-- A list is the only one that is linked. -/
lemma KernelState.Waiters.unique {s : KernelState cfg} {o : ℕ} {L K : List ℕ} (h : s.Waiters o L)
    (h' : s.Waiters o K) : L = K := by
  have hhead := congrArg OsPendList.headPtr (Option.some_inj.mp (h.2.symm.trans h'.2))
  exact h.1.cells_unique h'.1 hhead

set_option maxRecDepth 2000 in
/-- In the run two tasks wait for the semaphore. -/
lemma waiters_waitState : waitState.Waiters 10 [20, 21] :=
  ⟨Mem.holds_cons.mpr ⟨rfl, Mem.holds_cons.mpr ⟨rfl, Mem.holds_nil _⟩⟩, rfl⟩

/-! ### Signals -/

/-- **`OSSemPost` gives the signal away, or counts it.**  Where tasks wait for the semaphore, the
first of its list, which is in the order of their priorities, is released, or all are if the options
say so, and the count stays; where none waits the count goes up, unless it is at its end. -/
theorem kernel_semPost (cfg : Config) (space : Space) (mem : Memory space) (es : List Event)
    (s s' : KernelState cfg) (h : Reaches (CheckedNext space) (KernelState.osInit cfg mem) es s)
    (o : ℕ) (k : OsSem) (hk : s.machine.shared.sem o = some k) (htype : k.type = .sem)
    (opt : BitVec 16)
    (hopt : opt = osOptPost1 ∨ opt = osOptPostAll ∨ opt = osOptPost1 ||| osOptPostNoSched
      ∨ opt = osOptPostAll ||| osOptPostNoSched) (ts : ℕ)
    (hs : CheckedNext space s (.call (.osSemPost (some o) opt ts)) s') :
    ∃ L : List ℕ, s.Waiters o L
      ∧ L.Pairwise (fun d e => s.machine.shared.prioKey d ≤ s.machine.shared.prioKey e)
      ∧ (L ≠ [] → ∃ n, n = (if opt &&& osOptPostAll ≠ 0 then L.length else 1)
        ∧ s'.Waiters o (L.drop n) ∧ s.Releases s' .ok ts (L.take n))
      ∧ (L = [] → s'.Waiters o [] ∧ s'.machine.shared.tcb = s.machine.shared.tcb
        ∧ s'.machine.shared.sem = Function.update s.machine.shared.sem o (some
          (if k.ctr = BitVec.allOnes 32 then k else { k with ctr := k.ctr + 1, ts := ts }))) := by
  obtain ⟨q, hq⟩ := exists_models h
  have hc := hq.sound.consistent
  have hshared := hq.refines.shared
  rw [hshared] at hk
  have henabled := hs.1.1
  rw [Enabled, hshared] at henabled
  have ho : o ∈ space.sems := henabled.2.1 o rfl
  have hpost : (osSemPost (some o) opt ts).Ends (Queues.exec cfg space) q
      fun _ q' => Posted opt ts o q q' := by
    refine .ite (fun hbad => absurd hopt hbad) fun _ => .after (run_sem_of hk) ?_
    refine .ite (fun hbad => absurd htype hbad) fun _ => ?_
    exact (ends_semPost hc ho (hc.mem_listed ho hk htype) opt).mono fun _ _ hs => hs.2
  obtain ⟨q', hq', hposted⟩ := hq.of_ends hs (Sound.ends_call henabled hpost)
  have hshared' := hq'.refines.shared
  refine ⟨q.pend o, hq.waiters ho hk htype, ?_, fun hne => ?_, fun hnil => ?_⟩
  · rw [hshared]
    exact hc.prio_sorted o
  · rw [Posted, if_neg hne] at hposted
    exact ⟨_, rfl, hq.releases hq' ho hk htype hposted⟩
  · rw [Posted, if_pos hnil, hk, Option.map_some] at hposted
    obtain ⟨htcb, hpend, hsem⟩ := hposted
    refine ⟨?_, by rw [hshared, hshared', htcb], by rw [hshared, hshared', hsem]⟩
    rw [← hpend]
    refine hq'.waiters ho (by rw [hsem, Function.update_self]) ?_
    split_ifs
    · exact htype
    · exact htype

set_option maxRecDepth 2000 in
/-- The tick task signals the semaphore: the first of those who wait is released. -/
theorem kernel_semPost_one : postState.Waiters 10 [21]
    ∧ waitState.Releases postState .ok 7 [20] := by
  obtain ⟨L, hL, -, hrelease, -⟩ := kernel_semPost _ _ _ _ _ _ reaches_waitState 10 ⟨.sem, 0, 0⟩ rfl
    rfl osOptPost1 (.inl rfl) 7 next_post
  obtain rfl := hL.unique waiters_waitState
  obtain ⟨n, hn, hwaiters, hreleases⟩ := hrelease (by simp)
  rw [if_neg (by decide)] at hn
  subst hn
  exact ⟨hwaiters, hreleases⟩

/-- **`OSSemPendAbort` ends the wait of one task**, the first of the list of the semaphore, unless
its option is `OS_OPT_PEND_ABORT_ALL` alone: then it ends the waits of all.  The count stays. -/
theorem kernel_semPendAbort (cfg : Config) (space : Space) (mem : Memory space) (es : List Event)
    (s s' : KernelState cfg) (h : Reaches (CheckedNext space) (KernelState.osInit cfg mem) es s)
    (o : ℕ) (k : OsSem) (hk : s.machine.shared.sem o = some k) (htype : k.type = .sem)
    (opt : BitVec 16)
    (hopt : opt = osOptPendAbort1 ∨ opt = osOptPendAbortAll
      ∨ opt = osOptPendAbort1 ||| osOptPostNoSched ∨ opt = osOptPendAbortAll ||| osOptPostNoSched)
    (ts : ℕ) (hnesting : s.machine.shared.osIntNestingCtr = 0)
    (hs : CheckedNext space s (.call (.osSemPendAbort (some o) opt ts)) s') :
    ∃ L : List ℕ, s.Waiters o L
      ∧ L.Pairwise (fun d e => s.machine.shared.prioKey d ≤ s.machine.shared.prioKey e)
      ∧ ∃ n, n = (if opt = osOptPendAbortAll then L.length else min 1 L.length)
        ∧ s'.Waiters o (L.drop n) ∧ s.Releases s' .abort ts (L.take n) := by
  obtain ⟨q, hq⟩ := exists_models h
  have hc := hq.sound.consistent
  rw [hq.refines.shared] at hk hnesting
  have henabled := hs.1.1
  rw [Enabled, hq.refines.shared] at henabled
  have ho : o ∈ space.sems := henabled.2.1 o rfl
  have habort : (osSemPendAbort (some o) opt ts).Ends (Queues.exec cfg space) q
      fun _ q' => Released .abort ts o (abortCount opt (q.pend o)) q q' := by
    refine .after run_get (.ite (fun hpos => absurd hnesting hpos.ne') fun _ => ?_)
    refine .ite (fun hbad => absurd hopt hbad) fun _ => .after (run_sem_of hk) ?_
    refine .ite (fun hbad => absurd htype hbad) fun _ => ?_
    exact (ends_semPendAbort hc (hc.mem_listed ho hk htype) opt).mono fun _ _ hs => hs.2
  obtain ⟨q', hq', hreleased⟩ := hq.of_ends hs (Sound.ends_call henabled habort)
  refine ⟨q.pend o, hq.waiters ho hk htype, ?_, _, rfl, hq.releases hq' ho hk htype hreleased⟩
  rw [hq.refines.shared]
  exact hc.prio_sorted o

/-- The tick task aborts all waits, without a call of `OSSched`. -/
def abortEvent : Event :=
  .call (.osSemPendAbort (some 10) (osOptPendAbortAll ||| osOptPostNoSched) 7)

set_option maxRecDepth 2000 in
/-- Only the first of the two who wait is released. -/
theorem kernel_semPendAbort_noSched : (waitState.after abortEvent).Waiters 10 [21]
    ∧ waitState.Releases (waitState.after abortEvent) .abort 7 [20] := by
  have hnext : CheckedNext .five waitState abortEvent (waitState.after abortEvent) :=
    next_after reaches_waitState ⟨rfl, mem_sems_five, .task 2, rfl, by decide, rfl⟩ id
  obtain ⟨L, hL, -, n, hn, hwaiters, hreleases⟩ := kernel_semPendAbort _ _ _ _ _ _
    reaches_waitState 10 ⟨.sem, 0, 0⟩ rfl rfl (osOptPendAbortAll ||| osOptPostNoSched)
    (.inr (.inr (.inr rfl))) 7 rfl hnext
  obtain rfl := hL.unique waiters_waitState
  rw [if_neg (by decide)] at hn
  subst hn
  exact ⟨hwaiters, hreleases⟩

end Wgs.Ucos
