import Wgs.Foundation.Runs
import Wgs.Foundation.Sync

/-!
`Pthread/pthread-mutex-2.c`: a producer and a consumer that lock one mutex and unlock the other.

A step of a thread is the lock, the test-and-update section or the unlock, the test of the `for`
loop being taken together with what comes before it; a run is the list of the threads that make
the steps.  The counters stay between zero and the constants `NUMS` and `CAPACITY`, which are
`int`s, so none of them wraps.

* `produce`, `consume`: the next step of each thread;
* `Accounted`: `capacity` is what was produced and not yet consumed, in every run;
* `State.tokens`: a mutex that is free is a token, and so is a thread between its lock and its
  unlock.  There are two of them at the start and one is enough for both threads, so the bodies
  overlap unless one is lost first (`exclusive_iff`).
-/

namespace Wgs.TwoMutex

open Foundation

/-! ### The program -/

/-- The threads, by the function each of them runs. -/
inductive Thread where
  | produce
  | consume
  deriving DecidableEq

/-- Where a thread is: at the lock, at the test-and-update section, at the unlock, or out of its
loop. -/
inductive Point where
  | lock
  | update
  | unlock
  | returned
  deriving DecidableEq

/-- A thread: where it is, and its `i`. -/
structure Local where
  point : Point
  i : ℤ
  deriving DecidableEq

/-- The variables of the program and its two threads. -/
structure State where
  capacity : ℤ
  mylockA : Mutex
  mylockB : Mutex
  producer : Local
  consumer : Local
  deriving DecidableEq

/-- `for (; i < NUMS;)` -/
def loopTest (NUMS i : ℤ) : Point := if i < NUMS then .lock else .returned

/-- The next step of `produce`. -/
def produce (NUMS CAPACITY : ℤ) (s : State) : Option State :=
  let i := s.producer.i
  match s.producer.point with
  | .lock => s.mylockA.lock.map fun lock => { s with mylockA := lock, producer := ⟨.update, i⟩ }
  | .update =>
      if s.capacity ≥ CAPACITY then some { s with producer := ⟨.unlock, i⟩ }
      else some { s with capacity := s.capacity + 1, producer := ⟨.unlock, i + 1⟩ }
  | .unlock =>
      some { s with mylockB := s.mylockB.unlock, producer := ⟨loopTest NUMS i, i⟩ }
  | .returned => none

/-- The next step of `consume`. -/
def consume (NUMS : ℤ) (s : State) : Option State :=
  let i := s.consumer.i
  match s.consumer.point with
  | .lock => s.mylockB.lock.map fun lock => { s with mylockB := lock, consumer := ⟨.update, i⟩ }
  | .update =>
      if s.capacity > 0 then
        some { s with capacity := s.capacity - 1, consumer := ⟨.unlock, i + 1⟩ }
      else some { s with consumer := ⟨.unlock, i⟩ }
  | .unlock =>
      some { s with mylockA := s.mylockA.unlock, consumer := ⟨loopTest NUMS i, i⟩ }
  | .returned => none

/-- The next step of a thread; a thread that waits or has returned has none. -/
def step (NUMS CAPACITY : ℤ) (s : State) : Thread → Option State
  | .produce => produce NUMS CAPACITY s
  | .consume => consume NUMS s

/-- The threads are created, and both mutexes are free. -/
def start (NUMS : ℤ) : State :=
  ⟨0, .free, .free, ⟨loopTest NUMS 0, 0⟩, ⟨loopTest NUMS 0, 0⟩⟩

/-- One step of a run. -/
def Next (NUMS CAPACITY : ℤ) (s : State) (t : Thread) (s' : State) : Prop :=
  step NUMS CAPACITY s t = some s'

variable {NUMS CAPACITY : ℤ} {s s' : State} {t : Thread} {ts : List Thread}

/-- **The cases of a step**: four points of two threads, the section of each with its two
branches. -/
lemma step_cases {P : State → Thread → State → Prop}
    (lockA : ∀ n B i c, P ⟨n, .free, B, ⟨.lock, i⟩, c⟩ .produce ⟨n, .locked, B, ⟨.update, i⟩, c⟩)
    (full : ∀ n A B i c, CAPACITY ≤ n →
      P ⟨n, A, B, ⟨.update, i⟩, c⟩ .produce ⟨n, A, B, ⟨.unlock, i⟩, c⟩)
    (put : ∀ n A B i c, n < CAPACITY →
      P ⟨n, A, B, ⟨.update, i⟩, c⟩ .produce ⟨n + 1, A, B, ⟨.unlock, i + 1⟩, c⟩)
    (unlockB : ∀ n A B i c,
      P ⟨n, A, B, ⟨.unlock, i⟩, c⟩ .produce ⟨n, A, .free, ⟨loopTest NUMS i, i⟩, c⟩)
    (lockB : ∀ n A i p, P ⟨n, A, .free, p, ⟨.lock, i⟩⟩ .consume ⟨n, A, .locked, p, ⟨.update, i⟩⟩)
    (take : ∀ n A B i p, 0 < n →
      P ⟨n, A, B, p, ⟨.update, i⟩⟩ .consume ⟨n - 1, A, B, p, ⟨.unlock, i + 1⟩⟩)
    (empty : ∀ n A B i p, n ≤ 0 →
      P ⟨n, A, B, p, ⟨.update, i⟩⟩ .consume ⟨n, A, B, p, ⟨.unlock, i⟩⟩)
    (unlockA : ∀ n A B i p,
      P ⟨n, A, B, p, ⟨.unlock, i⟩⟩ .consume ⟨n, .free, B, p, ⟨loopTest NUMS i, i⟩⟩)
    (h : Next NUMS CAPACITY s t s') : P s t s' := by
  obtain ⟨n, A, B, ⟨p, i⟩, ⟨c, k⟩⟩ := s
  rw [Next] at h
  cases t with
  | produce =>
      cases p with
      | lock =>
          obtain ⟨lock, hlock, rfl⟩ := Option.map_eq_some_iff.mp h
          obtain ⟨rfl, rfl⟩ := Mutex.lock_eq_some.mp hlock
          exact lockA n B i _
      | update =>
          simp only [step, produce] at h
          split at h
          · cases h
            exact full n A B i _ (by assumption)
          · cases h
            exact put n A B i _ (by omega)
      | unlock =>
          cases h
          exact unlockB n A B i _
      | returned => cases h
  | consume =>
      cases c with
      | lock =>
          obtain ⟨lock, hlock, rfl⟩ := Option.map_eq_some_iff.mp h
          obtain ⟨rfl, rfl⟩ := Mutex.lock_eq_some.mp hlock
          exact lockB n A k _
      | update =>
          simp only [step, consume] at h
          split at h
          · cases h
            exact take n A B k _ (by assumption)
          · cases h
            exact empty n A B k _ (by omega)
      | unlock =>
          cases h
          exact unlockA n A B k _
      | returned => cases h

/-! ### Counting -/

/-- What the loop knows of its counter, point by point. -/
def Local.Counts (NUMS : ℤ) (l : Local) : Prop :=
  match l.point with
  | .lock => l.i < NUMS
  | .update => l.i < NUMS
  | .unlock => l.i ≤ NUMS
  | .returned => l.i = NUMS

/-- `capacity` is what was produced and not yet consumed, and fits the buffer. -/
structure Accounted (CAPACITY : ℤ) (s : State) : Prop where
  capacity_eq : s.capacity = s.producer.i - s.consumer.i
  nonneg : 0 ≤ s.capacity
  le_capacity : s.capacity ≤ CAPACITY

/-- What every run keeps: the accounts and the counters of the two loops. -/
structure Counted (NUMS CAPACITY : ℤ) (s : State) : Prop where
  accounted : Accounted CAPACITY s
  producer : s.producer.Counts NUMS
  consumer : s.consumer.Counts NUMS
  consumed_nonneg : 0 ≤ s.consumer.i

lemma counts_loopTest {i : ℤ} (h : i ≤ NUMS) : Local.Counts NUMS ⟨loopTest NUMS i, i⟩ := by
  rw [loopTest]
  split_ifs with hlt
  · exact hlt
  · exact le_antisymm h (not_lt.mp hlt)

lemma counted_start (hN : 1 ≤ NUMS) (hC : 1 ≤ CAPACITY) : Counted NUMS CAPACITY (start NUMS) where
  accounted := ⟨rfl, le_rfl, by simp only [start]; omega⟩
  producer := counts_loopTest (by omega)
  consumer := counts_loopTest (by omega)
  consumed_nonneg := le_rfl

/-- A step keeps the accounts. -/
lemma Counted.step (hs : Counted NUMS CAPACITY s) (h : Next NUMS CAPACITY s t s') :
    Counted NUMS CAPACITY s' := by
  revert hs
  refine step_cases (P := fun s _ s' => Counted NUMS CAPACITY s → Counted NUMS CAPACITY s')
    ?lockA ?full ?put ?unlockB ?lockB ?take ?empty ?unlockA h
  case lockA => exact fun n B i c hs => ⟨⟨hs.1.1, hs.1.2, hs.1.3⟩, hs.2, hs.3, hs.4⟩
  case lockB => exact fun n A i p hs => ⟨⟨hs.1.1, hs.1.2, hs.1.3⟩, hs.2, hs.3, hs.4⟩
  case full => exact fun n A B i c _ hs => ⟨⟨hs.1.1, hs.1.2, hs.1.3⟩, le_of_lt hs.2, hs.3, hs.4⟩
  case empty => exact fun n A B i p _ hs => ⟨⟨hs.1.1, hs.1.2, hs.1.3⟩, hs.2, le_of_lt hs.3, hs.4⟩
  case unlockB =>
    exact fun n A B i c hs => ⟨⟨hs.1.1, hs.1.2, hs.1.3⟩, counts_loopTest hs.2, hs.3, hs.4⟩
  case unlockA =>
    exact fun n A B i p hs => ⟨⟨hs.1.1, hs.1.2, hs.1.3⟩, hs.2, counts_loopTest hs.3, hs.4⟩
  case put =>
    intro n A B i c hlt ⟨⟨heq, hnonneg, hle⟩, hp, hc, hi⟩
    refine ⟨⟨?_, ?_, ?_⟩, ?_, hc, hi⟩ <;> simp only [Local.Counts] at heq hnonneg hp ⊢ <;> omega
  case take =>
    intro n A B i p hpos ⟨⟨heq, hnonneg, hle⟩, hp, hc, hi⟩
    refine ⟨⟨?_, ?_, ?_⟩, hp, ?_, ?_⟩ <;> simp only [Local.Counts] at heq hle hc hi ⊢ <;> omega

lemma Counted.of_reaches (hN : 1 ≤ NUMS) (hC : 1 ≤ CAPACITY)
    (h : Reaches (Next NUMS CAPACITY) (start NUMS) ts s) : Counted NUMS CAPACITY s :=
  h.invariant (counted_start hN hC) fun _ _ _ hs hnext => hs.step hnext

/-! ### Tokens -/

/-- Is the thread between its lock and its unlock? -/
def Local.Inside (l : Local) : Prop := l.point = .update ∨ l.point = .unlock

instance (l : Local) : Decidable l.Inside := inferInstanceAs (Decidable (_ ∨ _))

/-- Not both threads are between their lock and their unlock. -/
def State.Exclusive (s : State) : Prop := ¬ (s.producer.Inside ∧ s.consumer.Inside)

/-- The token a thread holds. -/
def Local.tokens (l : Local) : ℕ := if l.Inside then 1 else 0

/-- The tokens there are: the mutexes that are free and the threads that hold one. -/
def State.tokens (s : State) : ℕ :=
  s.mylockA.tokens + s.mylockB.tokens + s.producer.tokens + s.consumer.tokens

@[simp] lemma tokens_lock {i : ℤ} : Local.tokens ⟨.lock, i⟩ = 0 := rfl

@[simp] lemma tokens_update {i : ℤ} : Local.tokens ⟨.update, i⟩ = 1 := rfl

@[simp] lemma tokens_unlock {i : ℤ} : Local.tokens ⟨.unlock, i⟩ = 1 := rfl

@[simp] lemma tokens_returned {i : ℤ} : Local.tokens ⟨.returned, i⟩ = 0 := rfl

@[simp] lemma tokens_ite {p : Prop} [Decidable p] {i : ℤ} :
    Local.tokens ⟨if p then .lock else .returned, i⟩ = 0 := by
  split_ifs <;> rfl

@[simp] lemma tokens_loopTest {i k : ℤ} : Local.tokens ⟨loopTest NUMS i, k⟩ = 0 := tokens_ite

/-- A thread that holds a token is inside. -/
lemma tokens_of_inside {l : Local} (h : l.Inside) : l.tokens = 1 := if_pos h

/-- **Tokens are lost and never made**, and the last one stays: what a thread gives back is a
token at the least. -/
lemma tokens_step (h : Next NUMS CAPACITY s t s') (hs : 1 ≤ s.tokens) :
    1 ≤ s'.tokens ∧ s'.tokens ≤ s.tokens := by
  revert hs
  refine step_cases (P := fun s _ s' => 1 ≤ s.tokens → 1 ≤ s'.tokens ∧ s'.tokens ≤ s.tokens)
    ?_ ?_ ?_ ?_ ?_ ?_ ?_ ?_ h <;> intros <;> simp [State.tokens] at * <;> omega

lemma tokens_of_reaches (h : Reaches (Next NUMS CAPACITY) (start NUMS) ts s) : 1 ≤ s.tokens :=
  h.invariant (I := fun s => 1 ≤ s.tokens) (by simp [start, State.tokens])
    fun _ _ _ hs hnext => (tokens_step hnext hs).1

/-- One token is not enough for both threads. -/
lemma exclusive_of_tokens (h : s.tokens ≤ 1) : s.Exclusive := by
  rintro ⟨hp, hc⟩
  have hpt := tokens_of_inside hp
  have hct := tokens_of_inside hc
  rw [State.tokens] at h
  omega

/-! ### The first round -/

/-- The first three steps of the schedule, or all of them, are steps of one thread. -/
def OneThreadFirst (ts : List Thread) : Prop := ∀ t ∈ ts.take 3, ∀ u ∈ ts.take 3, t = u

/-- A run computes its state. -/
lemma reaches_iff :
    Reaches (Next NUMS CAPACITY) (start NUMS) ts s
      ↔ ts.foldlM (step NUMS CAPACITY) (start NUMS) = some s :=
  Reaches.iff_foldlM

/-- Before its first unlock a thread alone finds the other at its lock. -/
lemma exclusive_of_short (hN : 1 ≤ NUMS) (hC : 1 ≤ CAPACITY) (hone : OneThreadFirst ts)
    (hlen : ts.length < 3) (h : Reaches (Next NUMS CAPACITY) (start NUMS) ts s) :
    s.Exclusive := by
  have hN' : 0 < NUMS := by omega
  have hC' : ¬ CAPACITY ≤ 0 := by omega
  rw [reaches_iff] at h
  match ts, hlen with
  | [], _ =>
      cases h
      simp [State.Exclusive, Local.Inside, start, loopTest, hN']
  | [t], _ =>
      cases t <;> simp [step, produce, consume, start, loopTest, hN', Mutex.lock] at h <;>
        subst h <;> simp [State.Exclusive, Local.Inside]
  | [t, u], _ =>
      obtain rfl : t = u := hone t (by simp) u (by simp)
      cases t <;> simp [step, produce, consume, start, loopTest, hN', hC', Mutex.lock] at h <;>
        subst h <;> simp [State.Exclusive, Local.Inside]

/-- The unlock that ends a first round made alone loses a token: the mutex was free. -/
lemma tokens_first_round (hN : 1 ≤ NUMS) (hC : 1 ≤ CAPACITY)
    (h : Reaches (Next NUMS CAPACITY) (start NUMS) [t, t, t] s) : s.tokens ≤ 1 := by
  have hN' : 0 < NUMS := by omega
  have hC' : ¬ CAPACITY ≤ 0 := by omega
  rw [reaches_iff] at h
  cases t <;> simp [step, produce, consume, start, loopTest, hN', hC', Mutex.lock] at h <;>
    subst h <;> simp [State.tokens]

/-- The other thread takes its lock while the first is in front of its section. -/
lemma overlap_two {u : Thread} (hN : 1 ≤ NUMS) (htu : t ≠ u)
    (h : Reaches (Next NUMS CAPACITY) (start NUMS) [t, u] s) : ¬ s.Exclusive := by
  have hN' : 0 < NUMS := by omega
  rw [reaches_iff] at h
  cases t <;> cases u <;>
    simp [step, produce, consume, start, loopTest, hN', Mutex.lock] at h htu <;>
    subst h <;> simp [State.Exclusive, Local.Inside]

/-- The other thread takes its lock while the first is behind its section. -/
lemma overlap_three {u : Thread} (hN : 1 ≤ NUMS) (hC : 1 ≤ CAPACITY) (htu : t ≠ u)
    (h : Reaches (Next NUMS CAPACITY) (start NUMS) [t, t, u] s) : ¬ s.Exclusive := by
  have hN' : 0 < NUMS := by omega
  have hC' : ¬ CAPACITY ≤ 0 := by omega
  rw [reaches_iff] at h
  cases t <;> cases u <;>
    simp [step, produce, consume, start, loopTest, hN', hC', Mutex.lock] at h htu <;>
    subst h <;> simp [State.Exclusive, Local.Inside]

lemma OneThreadFirst.of_append {us : List Thread} (h : OneThreadFirst (ts ++ us)) :
    OneThreadFirst ts := by
  have hsub : ts.take 3 ⊆ (ts ++ us).take 3 := by
    rw [List.take_append]
    exact List.subset_append_left _ _
  exact fun t ht u hu => h t (hsub ht) u (hsub hu)

/-- **With the first round made alone, the bodies never overlap.** -/
lemma exclusive_of_oneThreadFirst (hN : 1 ≤ NUMS) (hC : 1 ≤ CAPACITY) (hone : OneThreadFirst ts)
    (h : Reaches (Next NUMS CAPACITY) (start NUMS) ts s) : s.Exclusive := by
  match ts with
  | t :: u :: v :: ts =>
      obtain rfl : t = u := hone t (by simp) u (by simp)
      obtain rfl : t = v := hone t (by simp) v (by simp)
      obtain ⟨s₃, h₃, hrest⟩ := Reaches.of_append [t, t, t] h
      have hstart : 1 ≤ s₃.tokens ∧ s₃.tokens ≤ 1 :=
        ⟨tokens_of_reaches h₃, tokens_first_round hN hC h₃⟩
      refine exclusive_of_tokens (hrest.invariant (I := fun s => 1 ≤ s.tokens ∧ s.tokens ≤ 1) hstart
        fun s t s' hs hnext => ?_).2
      have hstep := tokens_step hnext hs.1
      exact ⟨hstep.1, hstep.2.trans hs.2⟩
  | [] | [t] | [t, u] => exact exclusive_of_short hN hC hone (by simp) h

/-- **Only with the first round made alone** do the bodies not overlap at once. -/
lemma oneThreadFirst_of_always (hN : 1 ≤ NUMS) (hC : 1 ≤ CAPACITY)
    (h : Reaches (Next NUMS CAPACITY) (start NUMS) ts s)
    (halways : Always (Next NUMS CAPACITY) (start NUMS) State.Exclusive ts) :
    OneThreadFirst ts := by
  match ts with
  | [] | [t] => simp [OneThreadFirst]
  | t :: u :: ts =>
      obtain rfl : t = u := by
        by_contra htu
        obtain ⟨s₂, h₂, -⟩ := Reaches.of_append [t, u] h
        exact overlap_two hN htu h₂ (halways _ ⟨ts, rfl⟩ _ h₂)
      match ts with
      | [] => simp [OneThreadFirst]
      | v :: ts =>
          obtain rfl : t = v := by
            by_contra htv
            obtain ⟨s₃, h₃, -⟩ := Reaches.of_append [t, t, v] h
            exact overlap_three hN hC htv h₃ (halways _ ⟨ts, rfl⟩ _ h₃)
          simp [OneThreadFirst]

/-- **Mutual exclusion and accounts.**  In every run the accounts are right; both threads are
never between their lock and their unlock at the same time exactly when the first three steps of
the run are steps of one thread. -/
theorem exclusive_iff (hN : 1 ≤ NUMS) (hC : 1 ≤ CAPACITY)
    (h : Reaches (Next NUMS CAPACITY) (start NUMS) ts s) :
    Always (Next NUMS CAPACITY) (start NUMS)
        (fun s => s.Exclusive ∧ Accounted CAPACITY s) ts ↔ OneThreadFirst ts := by
  constructor
  · intro halways
    exact oneThreadFirst_of_always hN hC h fun us hpre s hs => (halways us hpre s hs).1
  · rintro hone us ⟨vs, rfl⟩ s hs
    exact ⟨exclusive_of_oneThreadFirst hN hC hone.of_append hs,
      (Counted.of_reaches hN hC hs).accounted⟩

/-- A round of the producer, and then a round of the consumer. -/
theorem exclusive_iff_turns :
    Always (Next 10 5) (start 10) (fun s => s.Exclusive ∧ Accounted 5 s)
      [.produce, .produce, .produce, .consume, .consume, .consume] := by
  have hrun : Reaches (Next 10 5) (start 10)
      [.produce, .produce, .produce, .consume, .consume, .consume]
      ⟨0, .free, .locked, ⟨.lock, 1⟩, ⟨.lock, 1⟩⟩ := Reaches.iff_foldlM.mpr (by decide)
  refine (exclusive_iff (by decide) (by decide) hrun).mpr ?_
  simp [OneThreadFirst]

/-- **Both threads inside**: each takes its own mutex at once. -/
theorem both_inside :
    ¬ ∀ ts s, Reaches (Next 10 5) (start 10) ts s → s.Exclusive ∧ Accounted 5 s := by
  intro hclaim
  have hrun : Reaches (Next 10 5) (start 10) [.produce, .consume]
      ⟨0, .locked, .locked, ⟨.update, 0⟩, ⟨.update, 0⟩⟩ := Reaches.iff_foldlM.mpr (by decide)
  exact (hclaim _ _ hrun).1 (by decide)

end Wgs.TwoMutex
