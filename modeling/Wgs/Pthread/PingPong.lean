import Wgs.Foundation.Runs
import Wgs.Foundation.Sync

/-!
`Pthread/pthread-sem.c`: two threads that hand a turn to each other through two semaphores.

Each thread tests the clock, waits for its semaphore and posts the other one; the printing and the
sleeping are left out.  `lock_var` is unbounded.  What the clock says is part of the schedule:
anything at all (`Next`), or, with a deadline that passes once and for all, whether it has passed
(`Timed.Next`).

* `pthread1`, `pthread2`: the next step of each thread;
* `Turns`: the one token of the two semaphores and what it says of `lock_var`, in every run;
* `Timed.Blocked`: one thread has returned and the other waits for good.  It depends on where the
  token is when the deadline passes (`clean_iff`).
-/

namespace Wgs.PingPong

open Foundation

/-! ### The program -/

/-- The threads, by the function each of them runs. -/
inductive Thread where
  | pthread1
  | pthread2
  deriving DecidableEq

/-- Where a thread is: at the test of its loop, at `sem_wait`, in its body, which ends with
`sem_post`, or out of its loop. -/
inductive Point where
  | test
  | wait
  | body
  | returned
  deriving DecidableEq

/-- The variables of the program, the two threads with the `i` of `pthread1`, and the rounds that
`pthread1` has completed, which are no variable of the program. -/
structure State where
  lockVar : ℤ
  sem1 : ℕ
  sem2 : ℕ
  point1 : Point
  i : ℤ
  point2 : Point
  rounds : ℤ
  deriving DecidableEq

/-- `while (time(NULL) < end_time)`; `early` is what the comparison says. -/
def loopTest (early : Bool) : Point := if early then .wait else .returned

/-- The next step of `pthread1`. -/
def pthread1 (early : Bool) (s : State) : Option State :=
  match s.point1 with
  | .test => some { s with point1 := loopTest early }
  | .wait => (Sem.wait s.sem2).map fun sem => { s with sem2 := sem, point1 := .body, i := 0 }
  | .body =>
      if s.i < 2 then some { s with lockVar := s.lockVar + 1, i := s.i + 1 }
      else some { s with sem1 := Sem.post s.sem1, point1 := .test, rounds := s.rounds + 1 }
  | .returned => none

/-- The next step of `pthread2`. -/
def pthread2 (early : Bool) (s : State) : Option State :=
  match s.point2 with
  | .test => some { s with point2 := loopTest early }
  | .wait => (Sem.wait s.sem1).map fun sem => { s with sem1 := sem, point2 := .body }
  | .body => some { s with sem2 := Sem.post s.sem2, point2 := .test }
  | .returned => none

/-- The next step of a thread; a thread that waits or has returned has none. -/
def step (s : State) (t : Thread) (early : Bool) : Option State :=
  match t with
  | .pthread1 => pthread1 early s
  | .pthread2 => pthread2 early s

/-- `sem_init(&sem1, 0, 1); sem_init(&sem2, 0, 0);`, and the threads are created. -/
def start : State := ⟨0, 1, 0, .test, 0, .test, 0⟩

/-- One step of a run: the thread that makes it, and what the clock says should it be asked. -/
def Next (s : State) (i : Thread × Bool) (s' : State) : Prop := step s i.1 i.2 = some s'

variable {s s' : State} {t : Thread} {early : Bool} {ts : List (Thread × Bool)}

/-- **The cases of a step**: the points of two threads, the body of `pthread1` with its two
increments. -/
lemma step_cases {P : State → Thread → State → Prop}
    (test1 : ∀ v m n i q r,
      P ⟨v, m, n, .test, i, q, r⟩ .pthread1 ⟨v, m, n, loopTest early, i, q, r⟩)
    (wait1 : ∀ v m n i q r, P ⟨v, m, n + 1, .wait, i, q, r⟩ .pthread1 ⟨v, m, n, .body, 0, q, r⟩)
    (incr1 : ∀ v m n i q r, i < 2 →
      P ⟨v, m, n, .body, i, q, r⟩ .pthread1 ⟨v + 1, m, n, .body, i + 1, q, r⟩)
    (post1 : ∀ v m n i q r, 2 ≤ i →
      P ⟨v, m, n, .body, i, q, r⟩ .pthread1 ⟨v, m + 1, n, .test, i, q, r + 1⟩)
    (test2 : ∀ v m n p i r,
      P ⟨v, m, n, p, i, .test, r⟩ .pthread2 ⟨v, m, n, p, i, loopTest early, r⟩)
    (wait2 : ∀ v m n p i r, P ⟨v, m + 1, n, p, i, .wait, r⟩ .pthread2 ⟨v, m, n, p, i, .body, r⟩)
    (post2 : ∀ v m n p i r, P ⟨v, m, n, p, i, .body, r⟩ .pthread2 ⟨v, m, n + 1, p, i, .test, r⟩)
    (h : step s t early = some s') : P s t s' := by
  obtain ⟨v, m, n, p, i, q, r⟩ := s
  cases t with
  | pthread1 =>
      cases p with
      | test =>
          cases h
          exact test1 v m n i q r
      | wait =>
          obtain ⟨sem, hsem, rfl⟩ := Option.map_eq_some_iff.mp h
          obtain rfl : n = sem + 1 := Sem.wait_eq_some.mp hsem
          exact wait1 v m sem i q r
      | body =>
          simp only [step, pthread1] at h
          split at h
          · cases h
            exact incr1 v m n i q r (by assumption)
          · cases h
            exact post1 v m n i q r (by omega)
      | returned => cases h
  | pthread2 =>
      cases q with
      | test =>
          cases h
          exact test2 v m n p i r
      | wait =>
          obtain ⟨sem, hsem, rfl⟩ := Option.map_eq_some_iff.mp h
          obtain rfl : m = sem + 1 := Sem.wait_eq_some.mp hsem
          exact wait2 v sem n p i r
      | body =>
          cases h
          exact post2 v m n p i r
      | returned => cases h

/-! ### The token -/

/-- The token of a thread between its `sem_wait` and its `sem_post`. -/
def Point.tokens (p : Point) : ℕ := if p = .body then 1 else 0

@[simp] lemma tokens_test : Point.test.tokens = 0 := rfl

@[simp] lemma tokens_wait : Point.wait.tokens = 0 := rfl

@[simp] lemma tokens_body : Point.body.tokens = 1 := rfl

@[simp] lemma tokens_returned : Point.returned.tokens = 0 := rfl

@[simp] lemma tokens_loopTest : (loopTest early).tokens = 0 := by
  cases early <;> rfl

/-- The increments of the round that `pthread1` is in. -/
def State.increments (s : State) : ℤ := if s.point1 = .body then s.i else 0

/-- There is one token, and `lock_var` is what the rounds of `pthread1` have made of it. -/
structure Turns (s : State) : Prop where
  token : s.sem1 + s.sem2 + s.point1.tokens + s.point2.tokens = 1
  lockVar_eq : s.lockVar = 2 * s.rounds + s.increments
  counter : s.point1 = .body → 0 ≤ s.i ∧ s.i ≤ 2

lemma turns_start : Turns start := ⟨rfl, rfl, by simp [start]⟩

/-- A step hands the token on. -/
lemma Turns.step (hs : Turns s) (h : step s t early = some s') : Turns s' := by
  revert hs
  refine step_cases (P := fun s _ s' => Turns s → Turns s') ?test1 ?wait1 ?incr1 ?post1 ?test2
    ?wait2 ?post2 h
  case test1 =>
    intro v m n i q r ⟨htoken, hvar, hi⟩
    refine ⟨by simpa using htoken, ?_, ?_⟩ <;> cases early <;>
      simp_all [State.increments, loopTest]
  case wait1 =>
    intro v m n i q r ⟨htoken, hvar, hi⟩
    refine ⟨?_, by simpa [State.increments] using hvar, by simp⟩
    simp only [tokens_wait, tokens_body] at htoken ⊢
    omega
  case incr1 =>
    intro v m n i q r hlt ⟨htoken, hvar, hi⟩
    have hi := hi rfl
    refine ⟨htoken, ?_, fun _ => ?_⟩ <;> simp only [State.increments, if_pos] at hvar hi ⊢ <;> omega
  case post1 =>
    intro v m n i q r hle ⟨htoken, hvar, hi⟩
    have hi := hi rfl
    refine ⟨?_, ?_, by simp⟩
    · simp only [tokens_test, tokens_body] at htoken ⊢
      omega
    · simp [State.increments] at hvar hi ⊢
      omega
  case test2 => exact fun v m n p i r ⟨htoken, hvar, hi⟩ => ⟨by simpa using htoken, hvar, hi⟩
  case wait2 =>
    intro v m n p i r ⟨htoken, hvar, hi⟩
    refine ⟨?_, hvar, hi⟩
    simp only [tokens_wait, tokens_body] at htoken ⊢
    omega
  case post2 =>
    intro v m n p i r ⟨htoken, hvar, hi⟩
    refine ⟨?_, hvar, hi⟩
    simp only [tokens_test, tokens_body] at htoken ⊢
    omega

/-- A thread in its body has the token. -/
lemma tokens_of_body {p : Point} (h : p = .body) : p.tokens = 1 := by
  rw [h, tokens_body]

/-- The bodies do not overlap. -/
lemma Turns.exclusive (hs : Turns s) : ¬ (s.point1 = .body ∧ s.point2 = .body) := by
  rintro ⟨h1, h2⟩
  have htoken := hs.token
  rw [tokens_of_body h1, tokens_of_body h2] at htoken
  omega

/-- **The ping-pong.**  In every state reached, whatever the clock said, the values of the
semaphores and the threads in their bodies add up to one, so the bodies do not overlap; and in the
body of `pthread2`, `lock_var` is even, twice the rounds that `pthread1` has completed. -/
theorem ping_pong (h : Reaches Next start ts s) :
    s.sem1 + s.sem2 + s.point1.tokens + s.point2.tokens = 1
      ∧ ¬ (s.point1 = .body ∧ s.point2 = .body)
      ∧ (s.point2 = .body → Even s.lockVar ∧ s.lockVar = 2 * s.rounds) := by
  have hs : Turns s := h.invariant turns_start fun _ _ _ hs hnext => hs.step hnext
  refine ⟨hs.token, hs.exclusive, fun h2 => ?_⟩
  have h1 : s.point1 ≠ .body := fun h1 => hs.exclusive ⟨h1, h2⟩
  have hvar : s.lockVar = 2 * s.rounds := by
    rw [hs.lockVar_eq, State.increments, if_neg h1, add_zero]
  exact ⟨hvar ▸ even_two_mul _, hvar⟩

/-- A round of each thread, and `pthread2` is in its body again. -/
theorem ping_pong_round :
    ∃ s, Reaches Next start
        ([.pthread2, .pthread2, .pthread2, .pthread1, .pthread1, .pthread1, .pthread1, .pthread1,
          .pthread2, .pthread2].map (·, true)) s ∧ s.point2 = .body ∧ s.lockVar = 2 := by
  have hrun : Reaches Next start
      ([.pthread2, .pthread2, .pthread2, .pthread1, .pthread1, .pthread1, .pthread1, .pthread1,
        .pthread2, .pthread2].map (·, true)) ⟨2, 0, 0, .test, 2, .body, 1⟩ :=
    Reaches.iff_foldlM.mpr (by decide)
  exact ⟨_, hrun, rfl, ((ping_pong hrun).2.2 rfl).2⟩

end Wgs.PingPong
