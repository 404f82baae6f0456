import Wgs.Ucos.Services

/-!
What the scheduler and the tick task leave.

A scheduler call that is not held off makes the first task of the best ready list the current one
(`Dispatches`).  `OS_TickListUpdate` ends the waits of the tasks whose tick has come, and of no
others.
-/

namespace Wgs.Ucos

open Foundation Ucos.Kernel

variable {cfg : Config} {space : Space} {s s' : Queues} {t u i p : ℕ} {x y : OsTcb}

/-- The first task of the best ready list is the current one now. -/
def Dispatches (s s' : Queues) : Prop :=
  ∃ p t L, IsLeast {p | s.rdy p ≠ []} p ∧ s.rdy p = t :: L
    ∧ s' = { s with shared := { s.shared with
        osPrioHighRdy := p
        osTcbHighRdyPtr := some t
        osPrioCur := p
        osTcbCurPtr := some t } }

/-- The first task of the best ready list is found. -/
lemma exec_highest (h : Consistent cfg space s) (hne : ∃ p, s.rdy p ≠ []) :
    ∃ p t L x, IsLeast {p | s.rdy p ≠ []} p ∧ s.rdy p = t :: L
      ∧ s.shared.tcb t = some x ∧ x.prio = p
      ∧ Queues.exec cfg space .prioGetHighest s = some (p, s)
      ∧ Queues.exec cfg space (.rdyHead p) s = some (some t, s) := by
  classical
  have hleast : IsLeast {p | s.rdy p ≠ []} (Nat.find hne) :=
    ⟨Nat.find_spec hne, fun p hp => Nat.find_min' hne hp⟩
  have hhighest : Queues.exec cfg space .prioGetHighest s = some (Nat.find hne, s) := by
    simp only [Queues.exec, dif_pos hne]
  generalize Nat.find hne = p at hleast hhighest
  obtain ⟨t, L, hL⟩ := List.exists_cons_of_ne_nil hleast.1
  obtain ⟨x, hx, -, hprio⟩ := h.of_mem_rdy (hL ▸ List.mem_cons_self)
  refine ⟨p, t, L, x, hleast, hL, hx, hprio, hhighest, ?_⟩
  simp [Queues.exec, given_of (hprio ▸ (h.tcb t x hx).prio_lt), hL]

/-- **A switch goes to the first task of the best ready list.** -/
lemma ends_switchToHighRdy (h : Consistent cfg space s)
    (hcur : ∀ t, s.shared.osTcbCurPtr = some t →
      ∃ x, s.shared.tcb t = some x ∧ s.shared.osPrioCur = x.prio)
    (hne : ∃ p, s.rdy p ≠ []) :
    (switchToHighRdy cfg).Ends (Queues.exec cfg space) s fun _ s' => Dispatches s s' := by
  obtain ⟨p, t, L, x, hleast, hL, hx, hprio, hhighest, hhead⟩ := exec_highest h hne
  refine .command hhighest (.command hhead (.after (run_modify _) (.after run_get ?_)))
  refine .ite (fun hsame => .ret ⟨p, t, L, hleast, hL, ?_⟩) fun _ => ?_
  · have hcur' : s.shared.osTcbCurPtr = some t := hsame.symm
    obtain ⟨z, hz, hzprio⟩ := hcur t hcur'
    obtain rfl := Option.some_inj.mp (hx.symm.trans hz)
    rw [← hcur', ← hprio, ← hzprio]
  · refine .of_run (a := ()) ?_ ⟨p, t, L, hleast, hL, rfl⟩
    simp [cfg.osCtxSw_eq, Queues.exec]

/-- **`OSSched`** -/
lemma ends_osSched (h : Consistent cfg space s)
    (hcur : ∀ t, s.shared.osTcbCurPtr = some t →
      ∃ x, s.shared.tcb t = some x ∧ s.shared.osPrioCur = x.prio)
    (hne : ∃ p, s.rdy p ≠ []) :
    (osSched cfg).Ends (Queues.exec cfg space) s fun _ s' =>
      if s.shared.osIntNestingCtr = 0 ∧ s.shared.osSchedLockNestingCtr = 0 then Dispatches s s'
      else s' = s := by
  refine .after run_get (.ite (fun hpos => .ret ?_) fun hnesting => .ite (fun hpos => .ret ?_) ?_)
  · rw [if_neg fun h => hpos.ne' h.1]
  · rw [if_neg fun h => hpos.ne' h.2]
  · intro hlock
    refine (ends_switchToHighRdy h hcur hne).mono fun _ s' hs => ?_
    rwa [if_pos ⟨Nat.eq_zero_of_not_pos hnesting, Nat.eq_zero_of_not_pos hlock⟩]

/-- **`OSIntEnter`** -/
lemma ends_osIntEnter :
    osIntEnter.Ends (Queues.exec cfg space) s fun _ s' => s' = s ∨ s.shared.osRunning = true
      ∧ s' = { s with
          shared := { s.shared with osIntNestingCtr := s.shared.osIntNestingCtr + 1 } } := by
  refine .after run_get (.ite (fun _ => .ret (.inl rfl)) fun hrunning => ?_)
  refine .ite (fun _ => .ret (.inl rfl)) fun _ => .of_run (run_modify _) (.inr ⟨?_, rfl⟩)
  exact eq_true_of_ne_false hrunning

/-- What `OSIntExit` leaves: an interrupt is over, and if it was the outermost one and the scheduler
is not locked, there is a switch. -/
def IntExits (s s' : Queues) : Prop :=
  if s.shared.osRunning = false ∨ s.shared.osIntNestingCtr = 0 then s' = s
  else if s.shared.osIntNestingCtr = 1 ∧ s.shared.osSchedLockNestingCtr = 0 then
    Dispatches { s with shared := { s.shared with osIntNestingCtr := 0 } } s'
  else s' = { s with shared := { s.shared with osIntNestingCtr := s.shared.osIntNestingCtr - 1 } }

/-- **`OSIntExit`** -/
lemma ends_osIntExit (h : Consistent cfg space s)
    (hcur : ∀ t, s.shared.osTcbCurPtr = some t →
      ∃ x, s.shared.tcb t = some x ∧ s.shared.osPrioCur = x.prio)
    (hne : s.shared.osRunning = true → ∃ p, s.rdy p ≠ []) :
    (osIntExit cfg).Ends (Queues.exec cfg space) s fun _ s' => IntExits s s' := by
  refine .after run_get (.ite (fun hrunning => .ret ?_) fun hrunning => ?_)
  · rw [IntExits, if_pos (.inl hrunning)]
  refine .ite (fun hzero => .ret ?_) fun hpos => .after (run_modify _) ?_
  · rw [IntExits, if_pos (.inr hzero)]
  have hor := not_or.mpr ⟨hrunning, hpos⟩
  refine .ite (fun hmore => .ret ?_) fun hlast => .ite (fun hlock => .ret ?_) fun hlock => ?_
  · rw [IntExits, if_neg hor, if_neg fun h => by omega]
  · rw [IntExits, if_neg hor, if_neg fun h => hlock.ne' h.2]
  · have hone : s.shared.osIntNestingCtr = 1 := by omega
    rw [hone]
    have hconsistent := h.setVars { s.shared.toOsVars with osIntNestingCtr := 0 } rfl
    have hswitch := ends_switchToHighRdy hconsistent hcur (hne (eq_true_of_ne_false hrunning))
    refine hswitch.mono fun _ s' hs => ?_
    rwa [IntExits, if_neg hor, if_pos ⟨hone, Nat.eq_zero_of_not_pos hlock⟩]

/-- **`OSStart`**, before the kernel runs. -/
lemma ends_osStart (h : Consistent cfg space s) (hrunning : s.shared.osRunning = false)
    (hne : ∃ p, s.rdy p ≠ []) :
    osStart.Ends (Queues.exec cfg space) s fun e s' => e = .none
      ∧ Dispatches { s with shared := { s.shared with osRunning := true } } s' := by
  obtain ⟨p, t, L, x, hleast, hL, -, -, hhighest, hhead⟩ := exec_highest h hne
  refine .after run_get (.ite (fun _ => ?_) fun hnot => absurd hrunning hnot)
  refine .command hhighest (.command hhead (.after (run_modify _) (.ret ?_)))
  exact ⟨rfl, p, t, L, hleast, hL, rfl⟩

/-! ### The tick task -/

/-- What the loop of `OS_TickListUpdate` leaves, in the spoke `i` at the tick `c`. -/
structure Swept (cfg : Config) (space : Space) (ts : ℕ → ℕ) (c : Tick) (i : ℕ) (s s' : Queues) :
    Prop where
  consistent : Consistent cfg space s'
  vars : s'.shared.toOsVars = s.shared.toOsVars
  spoke : ∀ j, j ≠ i → s'.spoke j = s.spoke j
  settled : ∀ a ∈ s'.spoke i, s'.shared.matchOf a ≠ some c
  tcb : ∀ u, s'.shared.tcb u = (s.shared.tcb u).map fun z =>
    if z.tickSpokePtr = some i ∧ z.tickCtrMatch = c then z.expired (ts u) else z

/-- The wheel is in order, so if the first task of a spoke is not to be woken none is. -/
lemma Consistent.not_due (h : Consistent cfg space s) {L : List ℕ} (hL : s.spoke i = t :: L)
    (hx : s.shared.tcb t = some x) (hnot : x.tickCtrMatch ≠ s.shared.osTickCtr) :
    ∀ a ∈ s.spoke i, s.shared.matchOf a ≠ some s.shared.osTickCtr := by
  intro a ha hdue
  have hsorted := h.tick_sorted i
  rw [hL, List.pairwise_cons] at hsorted
  have hle : s.shared.remain t ≤ s.shared.remain a := by
    rcases List.mem_cons.mp (hL ▸ ha) with rfl | ha'
    · exact le_refl _
    · exact hsorted.1 a ha'
  rw [Shared.remain, Shared.remain, hdue, Shared.matchOf, hx] at hle
  have hzero : (x.tickCtrMatch - s.shared.osTickCtr).toNat = 0 := by simpa using hle
  apply hnot
  bv_omega

/-- Where no task of the spoke is to be woken, nothing is done. -/
lemma Swept.refl (h : Consistent cfg space s) (ts : ℕ → ℕ) {c : Tick}
    (hnot : ∀ a ∈ s.spoke i, s.shared.matchOf a ≠ some c) : Swept cfg space ts c i s s where
  consistent := h
  vars := rfl
  spoke _ _ := rfl
  settled := hnot
  tcb u := by
    cases hz : s.shared.tcb u with
    | none => rfl
    | some z =>
        rw [Option.map_some, if_neg fun hdue => ?_]
        refine hnot u ((h.mem_spoke hz).mpr hdue.1) ?_
        rw [Shared.matchOf, hz, Option.map_some, hdue.2]

/-- The first task of the spoke is woken, and then the others are looked at. -/
lemma Swept.cons {ts : ℕ → ℕ} {c : Tick} {L : List ℕ} (h : Consistent cfg space s)
    (hL : s.spoke i = t :: L) (hx : s.shared.tcb t = some x) (hdue : x.tickCtrMatch = c)
    (h' : Swept cfg space ts c i (s.release t x.pendDataTblPtr (x.expired (ts t))) s') :
    Swept cfg space ts c i s s' := by
  obtain ⟨hshared, hspoke⟩ := Leads.release_tcb s t x.pendDataTblPtr (x.expired (ts t))
  have ht : t ∈ s.spoke i := hL ▸ List.mem_cons_self
  have hoff := (OsTcb.freed_expired (h.tcb t x hx) (ts t)).tickSpokePtr
  constructor
  case consistent => exact h'.consistent
  case vars => rw [h'.vars, hshared, Queues.setTcb_vars]
  case settled => exact h'.settled
  case spoke =>
    intro j hj
    rw [h'.spoke j hj, hspoke]
    exact List.erase_of_not_mem fun hmem => hj (h.spoke.unique hmem ht)
  case tcb =>
    intro u
    rw [h'.tcb u, hshared]
    rcases eq_or_ne u t with rfl | hu
    · rw [Queues.setTcb_tcb_self, hx, Option.map_some, Option.map_some, if_neg (by simp [hoff]),
        if_pos ⟨(h.mem_spoke hx).mp ht, hdue⟩]
    · rw [s.setTcb_tcb_of_ne _ hu]

/-- **The loop of `OS_TickListUpdate`** ends the waits of the tasks whose time has come. -/
lemma ends_tickListUpdateLoop (ts : ℕ → ℕ) {c : Tick} (n : ℕ) (h : Consistent cfg space s)
    (hc : s.shared.osTickCtr = c) (hn : (s.spoke i).length ≤ n) :
    (tickListUpdateLoop ts c n (s.spoke i).head?).Ends (Queues.exec cfg space) s
      fun _ s' => Swept cfg space ts c i s s' := by
  induction n generalizing s with
  | zero =>
      have hnil := List.length_eq_zero_iff.mp (Nat.le_zero.mp hn)
      rw [hnil]
      exact .ret (.refl h ts (by simp [hnil]))
  | succ n ih =>
      cases hL : s.spoke i with
      | nil => exact .ret (.refl h ts (by simp [hL]))
      | cons t L =>
          have ht : t ∈ s.spoke i := hL ▸ List.mem_cons_self
          obtain ⟨x, hx, hspoke⟩ := h.of_mem_spoke ht
          have hok := h.tcb t x hx
          have hdly := (hok.spoke i hspoke).2
          have hnext : Queues.exec cfg space (.tickNext t) s = some (L.head?, s) := by
            have hnextIn : nextIn (s.spoke i) t = L.head? := by
              rw [hL]
              exact nextIn_cons t L
            simp [Queues.exec, hx, hspoke, given_of ht, hnextIn]
          refine .command hnext (.after (run_tcb_of hx) (.ite (fun _ => ?_) (absurd hdly)))
          refine .command (given_of hok.mem _) (.ite (fun hdue => ?_) fun hnot => .ret ?_)
          · have hnot : x.isReady = false := by
              by_contra hready
              simp [hok.spoke_of_isReady (eq_true_of_ne_false hready)] at hspoke
            have hfree : x.taskState.isPend = false → x.pendDataTblPtr = none := fun hpend =>
              (hok.free fun hon => by simpa [hpend] using hok.pend.mpr (by simp [hon])).1
            have hrun := (h.isWaiting hx hnot).run_tickExpire h.spoke.nodup (ts t) hdly hfree
            have hconsistent := h.release hx hnot (OsTcb.freed_expired hok (ts t))
            obtain ⟨hshared, hspokes⟩ :=
              Leads.release_tcb s t x.pendDataTblPtr (x.expired (ts t))
            have hrest : (s.release t x.pendDataTblPtr (x.expired (ts t))).spoke i = L := by
              simp [hspokes, hL]
            have hloop := ih hconsistent (by rw [hshared, Queues.setTcb_vars, hc]) (by
              rw [hrest]
              simpa [hL] using hn)
            rw [hrest] at hloop
            exact .after hrun (hloop.mono fun _ _ hs => .cons h hL hx (hdue.symm.trans rfl) hs)
          · exact .refl h ts (hc ▸ h.not_due hL hx fun heq => hnot (hc ▸ heq.symm))

/-- What a task becomes at a tick: its wait is over if its time has come. -/
def OsTcb.atTick (x : OsTcb) (c : Tick) (ts : ℕ) : OsTcb :=
  if x.tickSpokePtr ≠ none ∧ x.tickCtrMatch = c then x.expired ts else x

/-- **`OS_TickListUpdate`** ends the waits of the tasks whose time has come, and of no others. -/
lemma ends_osTickListUpdate (ts : ℕ → ℕ) (h : Consistent cfg space s) (hsettled : Settled s) :
    (osTickListUpdate cfg ts).Ends (Queues.exec cfg space) s fun _ s' =>
      Consistent cfg space s' ∧ Settled s'
        ∧ s'.shared.toOsVars = { s.shared.toOsVars with osTickCtr := s.shared.osTickCtr + 1 }
        ∧ ∀ u, s'.shared.tcb u
            = (s.shared.tcb u).map fun z => z.atTick (s.shared.osTickCtr + 1) (ts u) := by
  have htick := h.tick hsettled
  have hi := Nat.mod_lt (s.shared.osTickCtr + 1).toNat cfg.tickWheelSize_pos
  refine .after (run_modify _) (.after run_get ?_)
  refine .command (given_of hi _) (.command (given_of hi _) ?_)
  refine (ends_tickListUpdateLoop ts _ htick rfl (le_refl _)).mono fun _ s' hs => ?_
  -- the spoke of a task whose time has come is the one that is looked at
  have hspoke : ∀ u z, s.shared.tcb u = some z → (z.tickSpokePtr ≠ none
      ∧ z.tickCtrMatch = s.shared.osTickCtr + 1
      ↔ z.tickSpokePtr = some ((s.shared.osTickCtr + 1).toNat % cfg.tickWheelSize)
      ∧ z.tickCtrMatch = s.shared.osTickCtr + 1) := by
    intro u z hz
    refine and_congr_left fun hdue => ⟨fun hne => ?_, fun hi => by simp [hi]⟩
    obtain ⟨i, hi⟩ := Option.ne_none_iff_exists'.mp hne
    rw [hi, ((h.tcb u z hz).spoke i hi).1, hdue]
  refine ⟨hs.consistent, fun i a ha => ?_, hs.vars, fun u => ?_⟩
  · rw [hs.vars]
    by_cases heq : i = (s.shared.osTickCtr + 1).toNat % cfg.tickWheelSize
    · subst heq
      exact hs.settled a ha
    · rw [hs.spoke i heq] at ha
      obtain ⟨z, hz, hzi⟩ := h.of_mem_spoke ha
      have hnot : ¬ (z.tickSpokePtr ≠ none ∧ z.tickCtrMatch = s.shared.osTickCtr + 1) := by
        rw [hspoke a z hz, hzi]
        exact fun hdue => heq (Option.some_inj.mp hdue.1)
      rw [Shared.matchOf, hs.tcb a, hz, Option.map_some, if_neg (mt (hspoke a z hz).mpr hnot),
        Option.map_some]
      exact fun hdue => hnot ⟨by simp [hzi], Option.some_inj.mp hdue⟩
  · rw [hs.tcb u]
    refine Option.map_congr fun z hz => ?_
    rw [OsTcb.atTick]
    simp only [hspoke u z hz]

end Wgs.Ucos
