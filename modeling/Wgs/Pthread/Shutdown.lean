import Wgs.Pthread.PingPong

/-!
How the two threads of `Pthread/pthread-sem.c` end.

The deadline passes at some moment and stays passed; a thread that tests the clock from then on
returns.  Each thread tests before it waits, so a thread that is past its test needs the turn once
more, and the other one may have returned with it.  Whether that happens is settled at the moment
the deadline passes (`InTime`, `clean_iff`).
-/

namespace Wgs.PingPong

open Foundation

/-- The program and whether the deadline has passed. -/
structure Timed where
  passed : Bool
  state : State
  deriving DecidableEq

/-- What happens next: a step of a thread, or the deadline passes. -/
inductive Tick where
  | thread (t : Thread)
  | deadline
  deriving DecidableEq

/-- A thread has the turn, and does not take it any more, while the other waits. -/
def State.Doomed (s : State) : Prop :=
  s.sem1 = 1 ∧ (s.point2 = .test ∨ s.point2 = .returned) ∧ s.point1 = .wait
    ∨ s.sem2 = 1 ∧ (s.point1 = .test ∨ s.point1 = .returned) ∧ s.point2 = .wait

/-- Behind the deadline it is settled whether a thread waits for good. -/
lemma doomed_step {s s' : State} {t : Thread} (hs : Turns s) (h : step s t false = some s') :
    s'.Doomed ↔ s.Doomed := by
  revert hs
  refine step_cases (P := fun s _ s' => Turns s → (s'.Doomed ↔ s.Doomed)) ?test1 ?wait1 ?incr1
    ?post1 ?test2 ?wait2 ?post2 h
  case test1 => simp [State.Doomed, loopTest]
  case test2 => simp [State.Doomed, loopTest]
  case incr1 => simp [State.Doomed]
  -- a thread that takes the turn or gives it back had it, and the other semaphore was zero
  case wait1 =>
    intro v m n i q r hturns
    have htoken := hturns.token
    simp [State.Doomed] at htoken ⊢
    omega
  case post1 =>
    intro v m n i q r _ hturns
    have htoken := hturns.token
    simp [State.Doomed] at htoken ⊢
    omega
  case wait2 =>
    intro v m n p i r hturns
    have htoken := hturns.token
    simp [State.Doomed] at htoken ⊢
    omega
  case post2 =>
    intro v m n p i r hturns
    have htoken := hturns.token
    simp [State.Doomed] at htoken ⊢
    omega

namespace Timed

/-- One step of a run. -/
def step (s : Timed) : Tick → Option Timed
  | .thread t => (PingPong.step s.state t !s.passed).map fun state => { s with state := state }
  | .deadline => some { s with passed := true }

/-- The threads are created, and there is time left. -/
def start : Timed := ⟨false, PingPong.start⟩

/-- One step of a run, as a relation. -/
def Next (s : Timed) (i : Tick) (s' : Timed) : Prop := s.step i = some s'

/-- One thread has returned, and the other waits for a semaphore whose value is zero. -/
def Blocked (s : Timed) : Prop :=
  s.state.point1 = .returned ∧ s.state.point2 = .wait ∧ s.state.sem1 = 0
    ∨ s.state.point2 = .returned ∧ s.state.point1 = .wait ∧ s.state.sem2 = 0

/-- When the deadline passes: no thread is at its test with the turn while the other waits. -/
def InTime (s : Timed) (i : Tick) : Prop :=
  i = .deadline → s.passed = false →
    ¬ (s.state.sem1 = 1 ∧ s.state.point2 = .test ∧ s.state.point1 = .wait)
      ∧ ¬ (s.state.sem2 = 1 ∧ s.state.point1 = .test ∧ s.state.point2 = .wait)

variable {s s' : Timed} {i : Tick} {is : List Tick}

lemma next_thread {t : Thread} (h : Next s (.thread t) s') :
    ∃ state, PingPong.step s.state t (!s.passed) = some state ∧ s' = { s with state := state } := by
  obtain ⟨state, hstate, heq⟩ := Option.map_eq_some_iff.mp h
  exact ⟨state, hstate, heq.symm⟩

lemma next_deadline (h : Next s .deadline s') : s' = { s with passed := true } :=
  (Option.some_inj.mp h).symm

/-- Before the deadline no thread returns. -/
def Running (s : Timed) : Prop :=
  s.passed = false → s.state.point1 ≠ .returned ∧ s.state.point2 ≠ .returned

lemma turns_next (hs : Turns s.state) (h : Next s i s') : Turns s'.state := by
  cases i with
  | thread t =>
      obtain ⟨state, hstate, rfl⟩ := next_thread h
      exact hs.step hstate
  | deadline =>
      obtain rfl := next_deadline h
      exact hs

lemma running_next (hs : Running s) (h : Next s i s') : Running s' := by
  cases i with
  | deadline =>
      obtain rfl := next_deadline h
      exact fun hpassed => by cases hpassed
  | thread t =>
      obtain ⟨state, hstate, rfl⟩ := next_thread h
      intro hpassed
      have hrunning := hs hpassed
      revert hrunning
      refine step_cases (P := fun s _ s' => s.point1 ≠ .returned ∧ s.point2 ≠ .returned →
        s'.point1 ≠ .returned ∧ s'.point2 ≠ .returned) ?_ ?_ ?_ ?_ ?_ ?_ ?_ hstate <;>
        simp_all [loopTest]

/-- What every run keeps, and what it keeps when the deadline passes in time. -/
structure Clean (s : Timed) : Prop where
  turns : Turns s.state
  running : Running s
  settled : s.passed = true → ¬ s.state.Doomed

lemma clean_start : Clean start :=
  ⟨turns_start, fun _ => ⟨nofun, nofun⟩, fun hpassed => by cases hpassed⟩

/-- A step keeps a run clean, the deadline if it passes in time. -/
lemma Clean.step (hs : Clean s) (hin : InTime s i) (h : Next s i s') : Clean s' := by
  refine ⟨turns_next hs.turns h, running_next hs.running h, fun hpassed => ?_⟩
  cases i with
  | thread t =>
      obtain ⟨state, hstate, rfl⟩ := next_thread h
      have hpassed : s.passed = true := hpassed
      rw [hpassed] at hstate
      exact fun hdoomed => hs.settled hpassed ((doomed_step hs.turns hstate).mp hdoomed)
  | deadline =>
      obtain rfl := next_deadline h
      cases hp : s.passed with
      | true => exact hs.settled hp
      | false =>
          obtain ⟨hturn1, hturn2⟩ := hin rfl hp
          obtain ⟨hr1, hr2⟩ := hs.running hp
          simp only [State.Doomed]
          tauto

/-- In a clean run no thread waits for good. -/
lemma Clean.not_blocked (hs : Clean s) : ¬ Blocked s := by
  intro hblocked
  cases hp : s.passed with
  | false =>
      obtain ⟨hr1, hr2⟩ := hs.running hp
      rcases hblocked with ⟨h1, -, -⟩ | ⟨h2, -, -⟩
      · exact hr1 h1
      · exact hr2 h2
  | true =>
      have htoken := hs.turns.token
      refine hs.settled hp ?_
      rcases hblocked with ⟨h1, h2, hsem⟩ | ⟨h2, h1, hsem⟩
      · rw [h1, h2, hsem] at htoken
        exact Or.inr ⟨by simpa using htoken, Or.inr h1, h2⟩
      · rw [h1, h2, hsem] at htoken
        exact Or.inl ⟨by simpa using htoken, Or.inr h2, h1⟩

/-- A run in which the deadline passes in time is clean. -/
lemma always_clean (hin : AtEvery Next start InTime is) : Always Next start Clean is :=
  .of_atEvery clean_start (fun _ _ _ hs hin hnext => hs.step hin hnext) hin

/-! ### Behind the deadline -/

/-- Behind the deadline a doomed run stays doomed. -/
lemma doomed_of_reaches (hs : Turns s.state) (hpassed : s.passed = true) (hdoomed : s.state.Doomed)
    (h : Reaches Next s is s') : Turns s'.state ∧ s'.passed = true ∧ s'.state.Doomed := by
  refine h.invariant (I := fun s => Turns s.state ∧ s.passed = true ∧ s.state.Doomed)
    ⟨hs, hpassed, hdoomed⟩ fun s i s' ⟨hs, hpassed, hdoomed⟩ hnext => ?_
  refine ⟨turns_next hs hnext, ?_⟩
  cases i with
  | thread t =>
      obtain ⟨state, hstate, rfl⟩ := next_thread hnext
      rw [hpassed] at hstate
      exact ⟨hpassed, (doomed_step hs hstate).mpr hdoomed⟩
  | deadline =>
      obtain rfl := next_deadline hnext
      exact ⟨rfl, hdoomed⟩

/-- **A doomed run can be continued until a thread waits for good**: the other one makes its
test. -/
lemma blocked_of_doomed (hs : Turns s.state) (hpassed : s.passed = true)
    (hdoomed : s.state.Doomed) : ∃ is s', Reaches Next s is s' ∧ Blocked s' := by
  obtain ⟨passed, v, m, n, p, i, q, r⟩ := s
  have htoken := hs.token
  simp only at hpassed htoken
  subst hpassed
  simp only [State.Doomed] at hdoomed
  rcases hdoomed with ⟨rfl, rfl | rfl, rfl⟩ | ⟨rfl, rfl | rfl, rfl⟩ <;>
    simp at htoken
  · subst htoken
    exact ⟨[.thread .pthread2], _, .step .start rfl, Or.inr ⟨rfl, rfl, rfl⟩⟩
  · exact ⟨[], _, .start, Or.inr ⟨rfl, rfl, htoken⟩⟩
  · subst htoken
    exact ⟨[.thread .pthread1], _, .step .start rfl, Or.inl ⟨rfl, rfl, rfl⟩⟩
  · exact ⟨[], _, .start, Or.inl ⟨rfl, rfl, htoken⟩⟩

/-- A deadline that passes out of time dooms the run. -/
lemma doomed_of_not_inTime (hin : ¬ InTime s i) (h : Next s i s') :
    s'.passed = true ∧ s'.state.Doomed := by
  simp only [InTime, not_forall] at hin
  obtain ⟨rfl, hp, hturn⟩ := hin
  obtain rfl := next_deadline h
  refine ⟨rfl, ?_⟩
  simp only [State.Doomed]
  tauto

/-- Every run keeps the token. -/
lemma turns_of_reaches (h : Reaches Next start is s) : Turns s.state :=
  h.invariant (I := fun s => Turns s.state) turns_start fun _ _ _ hs hnext => turns_next hs hnext

/-- A deadline that has passed has passed. -/
lemma passed_of_reaches (hs : s.passed = true) (h : Reaches Next s is s') : s'.passed = true := by
  refine h.invariant (I := fun s => s.passed = true) hs fun s i s' hs hnext => ?_
  cases i with
  | thread t =>
      obtain ⟨state, -, rfl⟩ := next_thread hnext
      exact hs
  | deadline =>
      obtain rfl := next_deadline hnext
      rfl

end Timed

open Timed

variable {is : List Tick} {s : Timed}

/-- A run whose continuations are never blocked had its deadline in time. -/
lemma inTime_of_never_blocked (h : Reaches Timed.Next Timed.start is s)
    (hclean : ∀ js, Always Timed.Next Timed.start (fun s => ¬ Blocked s) (is ++ js)) :
    AtEvery Timed.Next Timed.start InTime is := by
  intro js i hpre s₁ h₁
  by_contra hin
  obtain ⟨ks, rfl⟩ := hpre
  obtain ⟨s₂, h₂, hrest⟩ := Reaches.of_append _ h
  obtain ⟨s₁', h₁', hnext⟩ := Reaches.snoc_iff.mp h₂
  obtain rfl : s₁ = s₁' := Reaches.unique_of_foldlM h₁ h₁'
  obtain ⟨hpassed, hdoomed⟩ := doomed_of_not_inTime hin hnext
  obtain ⟨hs, hpassed, hdoomed⟩ :=
    doomed_of_reaches (turns_next (turns_of_reaches h₁) hnext) hpassed hdoomed hrest
  obtain ⟨ls, s', hls, hblocked⟩ := blocked_of_doomed hs hpassed hdoomed
  exact hclean ls _ List.prefix_rfl s' (h.append hls) hblocked

/-- Behind the deadline nothing happens that could be out of time. -/
lemma inTime_append (h : Reaches Timed.Next Timed.start is s) (hpassed : s.passed = true)
    (hin : AtEvery Timed.Next Timed.start InTime is) (js : List Tick) :
    AtEvery Timed.Next Timed.start InTime (is ++ js) := by
  induction js using List.reverseRecOn with
  | nil => simpa using hin
  | append_singleton js i ih =>
      rw [← List.append_assoc]
      refine ih.snoc fun s₁ h₁ _ hp => ?_
      obtain ⟨s', hs', hjs⟩ := Reaches.of_append _ h₁
      obtain rfl : s = s' := Reaches.unique_of_foldlM h hs'
      have hpassed' := passed_of_reaches hpassed hjs
      rw [hp] at hpassed'
      cases hpassed'

/-- **The shutdown.**  A run in which the deadline passes in time never has a thread returned and
the other waiting for good; and once the deadline has passed, the run and all its continuations are
like that exactly if it did pass in time. -/
theorem clean_iff (h : Reaches Timed.Next Timed.start is s) :
    (AtEvery Timed.Next Timed.start InTime is →
        Always Timed.Next Timed.start (fun s => ¬ Blocked s) is)
      ∧ (s.passed = true →
        ((∀ js, Always Timed.Next Timed.start (fun s => ¬ Blocked s) (is ++ js))
          ↔ AtEvery Timed.Next Timed.start InTime is)) := by
  have hclean : ∀ js, AtEvery Timed.Next Timed.start InTime js →
      Always Timed.Next Timed.start (fun s => ¬ Blocked s) js :=
    fun js hin ks hpre s hs => (always_clean hin ks hpre s hs).not_blocked
  refine ⟨hclean is, fun hpassed => ⟨inTime_of_never_blocked h, fun hin js => ?_⟩⟩
  exact hclean _ (inTime_append h hpassed hin js)

/-- `pthread2` has had its turn, and `pthread1` has made one of its two increments. -/
def midRound : List Tick :=
  [.thread .pthread1, .thread .pthread2, .thread .pthread2, .thread .pthread2, .thread .pthread1,
    .thread .pthread1]

/-- The deadline passes between the two increments of a round. -/
theorem clean_iff_mid_round :
    Reaches Timed.Next Timed.start (midRound ++ [.deadline])
        ⟨true, ⟨1, 0, 0, .body, 1, .test, 0⟩⟩
      ∧ ∀ js, Always Timed.Next Timed.start (fun s => ¬ Blocked s)
          (midRound ++ [.deadline] ++ js) := by
  have hmid : Reaches Timed.Next Timed.start midRound ⟨false, ⟨1, 0, 0, .body, 1, .test, 0⟩⟩ :=
    Reaches.iff_foldlM.mpr (by decide)
  have hrun : Reaches Timed.Next Timed.start (midRound ++ [.deadline])
      ⟨true, ⟨1, 0, 0, .body, 1, .test, 0⟩⟩ := Reaches.iff_foldlM.mpr (by decide)
  refine ⟨hrun, ((clean_iff hrun).2 rfl).mpr (AtEvery.snoc (fun js i hpre s _ heq _ => ?_) ?_)⟩
  · -- the deadline is none of the ticks before
    have hmem : i ∈ midRound := hpre.subset (by simp)
    subst heq
    exact absurd hmem (by decide)
  · intro s hs _ _
    obtain rfl := Reaches.unique_of_foldlM hmid hs
    exact ⟨by decide, by decide⟩

/-- **A thread waits for good**: `pthread1` has made its test, the deadline passes, and `pthread2`
returns with the turn. -/
theorem waits_for_good : ¬ ∀ is s, Reaches Timed.Next Timed.start is s → ¬ Blocked s := by
  intro hclaim
  have hrun : Reaches Timed.Next Timed.start
      [.thread .pthread1, .deadline, .thread .pthread2]
      ⟨true, 0, 1, 0, .wait, 0, .returned, 0⟩ := Reaches.iff_foldlM.mpr (by decide)
  exact hclaim _ _ hrun (Or.inr ⟨rfl, rfl, rfl⟩)

end Wgs.PingPong
