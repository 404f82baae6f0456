import Mathlib.Tactic

/-!
Mutexes and semaphores, as one of their calls finds and leaves them.

A call that has to wait has no result.  `Mutex.unlock` frees the mutex whoever calls it, and leaves
a free one free; `Sem.post` has no bound.  `tokens` counts what may be taken: a program that takes
and gives back one token a round keeps the count, except where it unlocks a mutex that is free.
-/

namespace Foundation

/-- A mutex. -/
inductive Mutex where
  | free
  | locked
  deriving DecidableEq

namespace Mutex

/-- `pthread_mutex_lock`; it waits while the mutex is locked. -/
def lock : Mutex → Option Mutex
  | free => some locked
  | locked => none

/-- `pthread_mutex_unlock`. -/
def unlock (_ : Mutex) : Mutex := free

/-- The tokens a mutex has to give. -/
def tokens : Mutex → ℕ
  | free => 1
  | locked => 0

lemma lock_eq_some {x y : Mutex} : x.lock = some y ↔ x = free ∧ y = locked := by
  cases x <;> simp [lock, eq_comm]

lemma lock_eq_none {x : Mutex} : x.lock = none ↔ x = locked := by
  cases x <;> simp [lock]

@[simp] lemma tokens_free : free.tokens = 1 := rfl

@[simp] lemma tokens_locked : locked.tokens = 0 := rfl

@[simp] lemma unlock_eq (x : Mutex) : x.unlock = free := rfl

end Mutex

/-! A semaphore is its value. -/

namespace Sem

/-- `sem_wait`; it waits while the value is zero. -/
def wait : ℕ → Option ℕ
  | 0 => none
  | n + 1 => some n

/-- `sem_post`. -/
def post (n : ℕ) : ℕ := n + 1

lemma wait_eq_some {n k : ℕ} : wait n = some k ↔ n = k + 1 := by
  cases n <;> simp [wait]

end Sem

end Foundation
