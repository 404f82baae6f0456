import Wgs.Pthread.TwoMutex

/-!
Where the producer and the consumer of `Pthread/pthread-mutex-2.c` wait for each other.

One token is never lost, so both threads never wait at once; what can happen is that the producer
has returned and the consumer waits for a mutex that nobody unlocks.  Behind the last unlock of
the producer the consumer can lock once more, and that has to be enough (`LastHandover`).  A run
that comes to an end has completed exactly when it was (`progress_iff`), and with more than one
item and more than one place there is a run that gets stuck (`stuck_of_two`).
-/

namespace Wgs.TwoMutex

open Foundation

variable {NUMS CAPACITY : ℤ} {s s' : State} {t : Thread} {ts : List Thread}

/-- Items are left to produce or to consume, and no thread has a step. -/
def Stuck (NUMS CAPACITY : ℤ) (s : State) : Prop :=
  (s.producer.i < NUMS ∨ s.consumer.i < NUMS) ∧ ∀ t, step NUMS CAPACITY s t = none

/-- The rounds that the consumer can still make once the producer has returned: the one it is in,
and another one if its mutex is free. -/
def State.rounds (s : State) : ℤ :=
  (if s.consumer.point = .update then 1 else 0) + s.mylockB.tokens

/-- At the last unlock of the producer: the items left are no more than the rounds that the
consumer can make behind it. -/
def LastHandover (NUMS : ℤ) (s : State) (t : Thread) : Prop :=
  t = .produce → s.producer.point = .unlock → s.producer.i = NUMS →
    NUMS ≤ s.consumer.i + (if s.consumer.point = .update then 2 else 1)

/-- If the producer has returned, the consumer can make the rounds it needs. -/
def Served (NUMS : ℤ) (s : State) : Prop :=
  s.producer.point = .returned → NUMS ≤ s.consumer.i + s.rounds

/-- The producer has returned, and the consumer cannot make the rounds it needs. -/
def Doomed (NUMS : ℤ) (s : State) : Prop :=
  s.producer.point = .returned ∧ s.consumer.i + s.rounds < NUMS

/-! ### Threads that have no step -/

lemma produce_eq_none :
    step NUMS CAPACITY s .produce = none
      ↔ s.producer.point = .lock ∧ s.mylockA = .locked ∨ s.producer.point = .returned := by
  obtain ⟨n, A, B, ⟨p, i⟩, c⟩ := s
  cases p with
  | lock => simp [step, produce, Mutex.lock_eq_none]
  | update =>
      simp only [step, produce]
      split_ifs <;> simp
  | unlock => simp [step, produce]
  | returned => simp [step, produce]

lemma consume_eq_none :
    step NUMS CAPACITY s .consume = none
      ↔ s.consumer.point = .lock ∧ s.mylockB = .locked ∨ s.consumer.point = .returned := by
  obtain ⟨n, A, B, p, ⟨c, i⟩⟩ := s
  cases c with
  | lock => simp [step, consume, Mutex.lock_eq_none]
  | update =>
      simp only [step, consume]
      split_ifs <;> simp
  | unlock => simp [step, consume]
  | returned => simp [step, consume]

lemma Local.Counts.lt_of_lock {l : Local} (h : l.Counts NUMS) (hl : l.point = .lock) :
    l.i < NUMS := by
  simpa [Counts, hl] using h

lemma Local.Counts.eq_of_returned {l : Local} (h : l.Counts NUMS) (hl : l.point = .returned) :
    l.i = NUMS := by
  simpa [Counts, hl] using h

lemma rounds_of_locked (hc : s.consumer.point = .lock) (hB : s.mylockB = .locked) :
    s.rounds = 0 := by
  simp [State.rounds, hc, hB]

lemma rounds_nonneg : 0 ≤ s.rounds := by
  rw [State.rounds]
  split_ifs <;> positivity

/-- **A run that is served is not stuck**: not both threads wait, since there is a token; the
consumer does not return before the producer has made its items; and behind the producer it does
not wait while items are left. -/
lemma not_stuck_of_served (hs : Counted NUMS CAPACITY s) (htokens : 1 ≤ s.tokens)
    (hserved : Served NUMS s) : ¬ Stuck NUMS CAPACITY s := by
  rintro ⟨hleft, hnone⟩
  have hcap := hs.accounted.capacity_eq
  have hnonneg := hs.accounted.nonneg
  rcases produce_eq_none.mp (hnone .produce) with ⟨hp, hA⟩ | hp <;>
    rcases consume_eq_none.mp (hnone .consume) with ⟨hc, hB⟩ | hc
  · simp [State.tokens, Local.tokens, Local.Inside, hp, hc, hA, hB] at htokens
  · have hlt := hs.producer.lt_of_lock hp
    have heq := hs.consumer.eq_of_returned hc
    omega
  · have hlt := hs.consumer.lt_of_lock hc
    have hrounds := hserved hp
    rw [rounds_of_locked hc hB] at hrounds
    omega
  · have hpi := hs.producer.eq_of_returned hp
    have hci := hs.consumer.eq_of_returned hc
    omega

/-- A run that is doomed ends stuck. -/
lemma stuck_of_doomed (hs : Counted NUMS CAPACITY s) (hdoomed : Doomed NUMS s)
    (hnone : ∀ t, step NUMS CAPACITY s t = none) : Stuck NUMS CAPACITY s := by
  refine ⟨Or.inr ?_, hnone⟩
  rcases consume_eq_none.mp (hnone .consume) with ⟨hc, -⟩ | hc
  · exact hs.consumer.lt_of_lock hc
  · have hrounds := rounds_nonneg (s := s)
    have hlt := hdoomed.2
    omega

/-! ### Behind the producer -/

/-- Once the producer has returned, every round of the consumer is an item consumed. -/
lemma rounds_step (hs : Counted NUMS CAPACITY s) (hp : s.producer.point = .returned)
    (h : Next NUMS CAPACITY s t s') :
    s'.producer.point = .returned ∧ s'.consumer.i + s'.rounds = s.consumer.i + s.rounds := by
  revert hs hp
  refine step_cases (P := fun s _ s' => Counted NUMS CAPACITY s → s.producer.point = .returned →
      s'.producer.point = .returned ∧ s'.consumer.i + s'.rounds = s.consumer.i + s.rounds)
    ?lockA ?full ?put ?unlockB ?lockB ?take ?empty ?unlockA h
  case lockA => exact fun n B i c _ hp => by cases hp
  case full => exact fun n A B i c _ _ hp => by cases hp
  case put => exact fun n A B i c _ _ hp => by cases hp
  case unlockB => exact fun n A B i c _ hp => by cases hp
  case lockB => exact fun n A i p _ hp => ⟨hp, by simp [State.rounds]⟩
  case take => exact fun n A B i p _ _ hp => ⟨hp, by simp [State.rounds]; omega⟩
  case unlockA =>
    refine fun n A B i p _ hp => ⟨hp, ?_⟩
    simp only [State.rounds, loopTest]
    split_ifs <;> simp_all
  case empty =>
    -- there is something to take: all items are produced, and not all are consumed
    intro n A B i p hn hs hp
    have hcap := hs.accounted.capacity_eq
    have hpi := hs.producer.eq_of_returned hp
    have hci : i < NUMS := hs.consumer
    simp only at hcap hpi
    omega

/-- The producer returns at its last unlock, which frees the mutex of the consumer. -/
lemma returns_step (hs : Counted NUMS CAPACITY s) (hp : s.producer.point ≠ .returned)
    (h : Next NUMS CAPACITY s t s') (hp' : s'.producer.point = .returned) :
    (t = .produce ∧ s.producer.point = .unlock ∧ s.producer.i = NUMS)
      ∧ s'.consumer.i + s'.rounds = s.consumer.i + (if s.consumer.point = .update then 2 else 1)
      := by
  revert hs hp hp'
  refine step_cases (P := fun s t s' => Counted NUMS CAPACITY s → s.producer.point ≠ .returned →
      s'.producer.point = .returned → (t = .produce ∧ s.producer.point = .unlock
        ∧ s.producer.i = NUMS) ∧ s'.consumer.i + s'.rounds
          = s.consumer.i + (if s.consumer.point = .update then 2 else 1))
    ?lockA ?full ?put ?unlockB ?lockB ?take ?empty ?unlockA h
  case lockA => exact fun n B i c _ _ hp' => by cases hp'
  case full => exact fun n A B i c _ _ _ hp' => by cases hp'
  case put => exact fun n A B i c _ _ _ hp' => by cases hp'
  case lockB => exact fun n A i p _ hp hp' => absurd hp' hp
  case take => exact fun n A B i p _ _ hp hp' => absurd hp' hp
  case empty => exact fun n A B i p _ _ hp hp' => absurd hp' hp
  case unlockA => exact fun n A B i p _ hp hp' => absurd hp' hp
  case unlockB =>
    intro n A B i c hs _ hp'
    have hle : i ≤ NUMS := hs.producer
    have hge : ¬ i < NUMS := by
      intro hlt
      simp [loopTest, hlt] at hp'
    refine ⟨⟨rfl, rfl, by simp only; omega⟩, ?_⟩
    simp only [State.rounds, Mutex.tokens_free]
    split_ifs <;> norm_num

/-- A step on which the last unlock is in time keeps the consumer served. -/
lemma Served.step (hs : Counted NUMS CAPACITY s) (hserved : Served NUMS s)
    (hlast : LastHandover NUMS s t) (h : Next NUMS CAPACITY s t s') : Served NUMS s' := by
  intro hp'
  by_cases hp : s.producer.point = .returned
  · have hrounds := (rounds_step hs hp h).2
    have hle := hserved hp
    omega
  · obtain ⟨⟨ht, hpoint, hi⟩, hrounds⟩ := returns_step hs hp h hp'
    have hle := hlast ht hpoint hi
    omega

/-- A last unlock that is not in time dooms the run. -/
lemma doomed_of_not_lastHandover (hs : Counted NUMS CAPACITY s) (hlast : ¬ LastHandover NUMS s t)
    (h : Next NUMS CAPACITY s t s') : Doomed NUMS s' := by
  simp only [LastHandover, not_forall, not_le] at hlast
  obtain ⟨rfl, hpoint, hi, hlt⟩ := hlast
  have hp' : s'.producer.point = .returned := by
    rw [Next, TwoMutex.step, produce] at h
    simp only [hpoint] at h
    cases h
    simp [loopTest, hi]
  obtain ⟨-, hrounds⟩ := returns_step hs (by simp [hpoint]) h hp'
  exact ⟨hp', by omega⟩

lemma Doomed.step (hs : Counted NUMS CAPACITY s) (hdoomed : Doomed NUMS s)
    (h : Next NUMS CAPACITY s t s') : Doomed NUMS s' := by
  obtain ⟨hp', hrounds⟩ := rounds_step hs hdoomed.1 h
  have hlt := hdoomed.2
  exact ⟨hp', by omega⟩

lemma Doomed.of_reaches (hs : Counted NUMS CAPACITY s) (hdoomed : Doomed NUMS s)
    (h : Reaches (Next NUMS CAPACITY) s ts s') : Counted NUMS CAPACITY s' ∧ Doomed NUMS s' :=
  h.invariant (I := fun s => Counted NUMS CAPACITY s ∧ Doomed NUMS s) ⟨hs, hdoomed⟩
    fun _ _ _ hs hnext => ⟨hs.1.step hnext, hs.2.step hs.1 hnext⟩

/-- **A run whose last unlock is in time is never stuck.** -/
lemma not_stuck_of_lastHandover (hN : 1 ≤ NUMS) (hC : 1 ≤ CAPACITY)
    (hlast : AtEvery (Next NUMS CAPACITY) (start NUMS) (LastHandover NUMS) ts) :
    Always (Next NUMS CAPACITY) (start NUMS) (fun s => ¬ Stuck NUMS CAPACITY s) ts := by
  have hstart : Served NUMS (start NUMS) := by
    intro hp
    simp only [start, loopTest] at hp
    rw [if_pos (by omega)] at hp
    cases hp
  have hserved : Always (Next NUMS CAPACITY) (start NUMS)
      (fun s => Counted NUMS CAPACITY s ∧ Served NUMS s) ts :=
    .of_atEvery ⟨counted_start hN hC, hstart⟩
      (fun s t s' hs hlast hnext => ⟨hs.1.step hnext, hs.2.step hs.1 hlast hnext⟩) hlast
  intro us hpre s hs
  obtain ⟨hcounted, hserved⟩ := hserved us hpre s hs
  exact not_stuck_of_served hcounted (tokens_of_reaches hs) hserved

/-- A run that has come to an end and is not stuck had its last unlock in time. -/
lemma lastHandover_of_ended (hN : 1 ≤ NUMS) (hC : 1 ≤ CAPACITY)
    (h : Reaches (Next NUMS CAPACITY) (start NUMS) ts s)
    (hended : ∀ t, step NUMS CAPACITY s t = none) (hstuck : ¬ Stuck NUMS CAPACITY s) :
    AtEvery (Next NUMS CAPACITY) (start NUMS) (LastHandover NUMS) ts := by
  intro us t hpre s₁ h₁
  by_contra hlast
  obtain ⟨vs, rfl⟩ := hpre
  obtain ⟨s₂, h₂, hrest⟩ := Reaches.of_append _ h
  obtain ⟨s₁', h₁', hnext⟩ := Reaches.snoc_iff.mp h₂
  obtain rfl : s₁ = s₁' := Reaches.unique_of_foldlM h₁ h₁'
  have hcounted := Counted.of_reaches hN hC h₁
  have hdoomed := doomed_of_not_lastHandover hcounted hlast hnext
  obtain ⟨hcounted', hdoomed'⟩ := hdoomed.of_reaches (hcounted.step hnext) hrest
  exact hstuck (stuck_of_doomed hcounted' hdoomed' hended)

/-! ### Getting stuck -/

/-- A run in which both threads are in each section at once: an item is produced and consumed. -/
lemma round_run {k : ℤ} (hk : k + 1 < NUMS) (hC : 1 ≤ CAPACITY) :
    Reaches (Next NUMS CAPACITY) ⟨0, .free, .free, ⟨.lock, k⟩, ⟨.lock, k⟩⟩
      [.produce, .consume, .produce, .consume, .produce, .consume]
      ⟨0, .free, .free, ⟨.lock, k + 1⟩, ⟨.lock, k + 1⟩⟩ := by
  have hC' : ¬ CAPACITY ≤ 0 := by omega
  refine Reaches.iff_foldlM.mpr ?_
  simp [step, produce, consume, loopTest, Mutex.lock, hk, hC']

/-- The consumer finds the buffer empty, and hands its mutex over while the producer is in its
section; so the producer makes its last two items in a row, and its last unlock is lost. -/
lemma stuck_run {k : ℤ} (hk : k + 2 = NUMS) (hC : 2 ≤ CAPACITY) :
    Reaches (Next NUMS CAPACITY) ⟨0, .free, .free, ⟨.lock, k⟩, ⟨.lock, k⟩⟩
      [.consume, .consume, .produce, .produce, .consume, .produce, .produce, .produce, .produce,
        .consume, .consume, .consume]
      ⟨1, .free, .locked, ⟨.returned, k + 2⟩, ⟨.lock, k + 1⟩⟩ := by
  have hC₀ : ¬ CAPACITY ≤ 0 := by omega
  have hC₁ : ¬ CAPACITY ≤ 1 := by omega
  have hk₀ : k < NUMS := by omega
  have hk₁ : k + 1 < NUMS := by omega
  refine Reaches.iff_foldlM.mpr ?_
  simp [step, produce, consume, loopTest, Mutex.lock, hk₀, hk₁, hC₀, hC₁, add_assoc]
  omega

/-- **With two items and two places a run gets stuck.** -/
lemma stuck_of_two (hN : 2 ≤ NUMS) (hC : 2 ≤ CAPACITY) :
    ∃ ts s, Reaches (Next NUMS CAPACITY) (start NUMS) ts s ∧ Stuck NUMS CAPACITY s := by
  have hrounds : ∀ k : ℕ, (k : ℤ) + 1 < NUMS → ∃ ts, Reaches (Next NUMS CAPACITY) (start NUMS) ts
      ⟨0, .free, .free, ⟨.lock, k⟩, ⟨.lock, k⟩⟩ := by
    intro k
    induction k with
    | zero =>
        intro hk
        refine ⟨[], ?_⟩
        rw [Reaches.nil_iff]
        simp [start, loopTest]
        omega
    | succ k ih =>
        intro hk
        push_cast at hk ⊢
        obtain ⟨ts, hts⟩ := ih (by omega)
        exact ⟨_, hts.append (round_run (by omega) (by omega))⟩
  obtain ⟨k, hk⟩ := Int.eq_ofNat_of_zero_le (show 0 ≤ NUMS - 2 by omega)
  obtain ⟨ts, hts⟩ := hrounds k (by omega)
  refine ⟨_, _, hts.append (stuck_run (by omega) hC), ?_, fun t => ?_⟩
  · exact Or.inr (by simp only; omega)
  · cases t <;> rfl

/-- **Progress.**  No run gets stuck exactly if there is one item or one place.  In general a run
whose last unlock is in time does not get stuck, and a run that has come to an end got stuck
exactly if its last unlock was not in time. -/
theorem progress_iff (hN : 1 ≤ NUMS) (hC : 1 ≤ CAPACITY) :
    ((∀ ts s, Reaches (Next NUMS CAPACITY) (start NUMS) ts s → ¬ Stuck NUMS CAPACITY s)
        ↔ NUMS = 1 ∨ CAPACITY = 1)
      ∧ ∀ ts s, Reaches (Next NUMS CAPACITY) (start NUMS) ts s →
        (AtEvery (Next NUMS CAPACITY) (start NUMS) (LastHandover NUMS) ts →
          Always (Next NUMS CAPACITY) (start NUMS) (fun s => ¬ Stuck NUMS CAPACITY s) ts)
        ∧ ((∀ t, step NUMS CAPACITY s t = none) →
          (Always (Next NUMS CAPACITY) (start NUMS) (fun s => ¬ Stuck NUMS CAPACITY s) ts
            ↔ AtEvery (Next NUMS CAPACITY) (start NUMS) (LastHandover NUMS) ts)) := by
  refine ⟨⟨fun hclaim => ?_, fun hone ts s hs => ?_⟩, fun ts s hs =>
    ⟨not_stuck_of_lastHandover hN hC, fun hended => ⟨fun halways => ?_,
      not_stuck_of_lastHandover hN hC⟩⟩⟩
  · by_contra hone
    obtain ⟨ts, s, hs, hstuck⟩ := stuck_of_two (show 2 ≤ NUMS by omega)
      (show 2 ≤ CAPACITY by omega)
    exact hclaim ts s hs hstuck
  · refine not_stuck_of_lastHandover hN hC (fun us t _ s hs => ?_) ts List.prefix_rfl s hs
    have hcounted := Counted.of_reaches hN hC hs
    have hcap := hcounted.accounted.capacity_eq
    have hle := hcounted.accounted.le_capacity
    have hconsumed := hcounted.consumed_nonneg
    intro _ _ hi
    rcases hone with rfl | rfl <;> split_ifs <;> omega
  · exact lastHandover_of_ended hN hC hs hended (halways ts List.prefix_rfl s hs)

/-- One item is always handed over, and the start is no exception. -/
theorem progress_iff_one_item :
    ¬ Stuck 1 5 (start 1) ∧ ∀ ts s, Reaches (Next 1 5) (start 1) ts s → ¬ Stuck 1 5 s := by
  have hnot := (progress_iff (show 1 ≤ 1 by decide) (show 1 ≤ 5 by decide)).1.mpr (Or.inl rfl)
  exact ⟨hnot [] _ .start, hnot⟩

/-- **A run of the program gets stuck**, with its ten items and five places. -/
theorem gets_stuck : ¬ ∀ ts s, Reaches (Next 10 5) (start 10) ts s → ¬ Stuck 10 5 s := by
  intro hclaim
  obtain ⟨ts, s, hs, hstuck⟩ := stuck_of_two (show 2 ≤ 10 by decide) (show 2 ≤ 5 by decide)
  exact hclaim ts s hs hstuck

end Wgs.TwoMutex
