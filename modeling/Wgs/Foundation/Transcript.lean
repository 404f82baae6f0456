import Mathlib.Tactic

/-!
What a client sees of a component.

A component answers a call with a reply and a new state, or it stops with an error.  `transcript`
is all the answers to a list of calls, up to the first error, and `stateAfter` the state they leave.
Two components whose answers agree call by call (`Agree`) have the same transcript
(`transcript_eq_of_agree`); `Along` carries what a call is promised when it is made.
-/

namespace Foundation

variable {ι ρ ε σ τ : Type*}

/-- The answers to a list of calls, up to the first error. -/
def transcript (exec : ι → σ → Except ε (ρ × σ)) : σ → List ι → List (Except ε ρ)
  | _, [] => []
  | s, i :: is =>
      match exec i s with
      | .error e => [.error e]
      | .ok (r, s') => .ok r :: transcript exec s' is

/-- The state after a list of calls, if none of them stops. -/
def stateAfter (exec : ι → σ → Except ε (ρ × σ)) : σ → List ι → Option σ
  | s, [] => some s
  | s, i :: is =>
      match exec i s with
      | .error _ => none
      | .ok (_, s') => stateAfter exec s' is

/-- `P` holds of every call that is made and the state it is made in. -/
def Along (exec : ι → σ → Except ε (ρ × σ)) (P : σ → ι → Prop) : σ → List ι → Prop
  | _, [] => True
  | s, i :: is => P s i ∧ ∀ r s', exec i s = .ok (r, s') → Along exec P s' is

/-- Two answers agree: the same error, or the same reply and related states. -/
def Agree (R : σ → τ → Prop) : Except ε (ρ × σ) → Except ε (ρ × τ) → Prop
  | .error e, .error e' => e = e'
  | .ok (r, s), .ok (r', t) => r = r' ∧ R s t
  | _, _ => False

variable {exec : ι → σ → Except ε (ρ × σ)} {exec' : ι → τ → Except ε (ρ × τ)} {R : σ → τ → Prop}
  {P : σ → ι → Prop} {P' : τ → ι → Prop} {s : σ} {t : τ} {is : List ι}

/-- **Answers that agree call by call** make the same transcript, and leave related states. -/
theorem transcript_eq_of_agree (exec : ι → σ → Except ε (ρ × σ)) (exec' : ι → τ → Except ε (ρ × τ))
    (hagree : ∀ s t i, R s t → P s i → P' t i → Agree R (exec i s) (exec' i t)) (h : R s t)
    (hP : Along exec P s is) (hP' : Along exec' P' t is) :
    transcript exec s is = transcript exec' t is
      ∧ ∀ t', stateAfter exec' t is = some t' → ∃ s', stateAfter exec s is = some s' ∧ R s' t' := by
  induction is generalizing s t with
  | nil =>
      refine ⟨rfl, fun t' ht => ⟨s, rfl, ?_⟩⟩
      cases ht
      exact h
  | cons i is ih =>
      have hstep := hagree s t i h hP.1 hP'.1
      cases hs : exec i s with
      | error e =>
          cases ht : exec' i t with
          | error e' =>
              rw [hs, ht] at hstep
              obtain rfl : e = e' := hstep
              simp [transcript, stateAfter, hs, ht]
          | ok rt =>
              rw [hs, ht] at hstep
              exact hstep.elim
      | ok rs =>
          obtain ⟨r, s'⟩ := rs
          cases ht : exec' i t with
          | error e' =>
              rw [hs, ht] at hstep
              exact hstep.elim
          | ok rt =>
              obtain ⟨r', t'⟩ := rt
              rw [hs, ht] at hstep
              obtain ⟨rfl, hR⟩ := hstep
              simpa [transcript, stateAfter, hs, ht] using ih hR (hP.2 r s' hs) (hP'.2 r t' ht)

/-- A component that stops with a fault. -/
def faulting (serve : ι → σ → Option (ρ × σ)) (i : ι) (s : σ) : Except Unit (ρ × σ) :=
  match serve i s with
  | none => .error ()
  | some r => .ok r

/-- A component that answers every call. -/
def answering (apply : ι → τ → ρ × τ) (i : ι) (t : τ) : Except Unit (ρ × τ) := .ok (apply i t)

/-- A component whose calls are served as a specification says, and leave related states, makes the
transcript of the specification. -/
theorem transcript_faulting_eq (serve : ι → σ → Option (ρ × σ)) (apply : ι → τ → ρ × τ)
    (hserve : ∀ s t i, R s t → ∃ s', serve i s = some ((apply i t).1, s') ∧ R s' (apply i t).2)
    (h : R s t) (is : List ι) :
    transcript (faulting serve) s is = transcript (answering apply) t is
      ∧ ∃ s' t', stateAfter (faulting serve) s is = some s'
          ∧ stateAfter (answering apply) t is = some t' ∧ R s' t' := by
  induction is generalizing s t with
  | nil => exact ⟨rfl, s, t, rfl, rfl, h⟩
  | cons i is ih =>
      obtain ⟨s', hs', hR⟩ := hserve s t i h
      simpa [transcript, stateAfter, faulting, answering, hs'] using ih hR

/-- What is true of every call holds along every transcript. -/
lemma Along.of_forall (h : ∀ s i, P s i) : Along exec P s is := by
  induction is generalizing s with
  | nil => trivial
  | cons i is ih => exact ⟨h s i, fun _ _ _ => ih⟩

lemma Along.mono {Q : σ → ι → Prop} (h : Along exec P s is) (hPQ : ∀ s i, P s i → Q s i) :
    Along exec Q s is := by
  induction is generalizing s with
  | nil => trivial
  | cons i is ih => exact ⟨hPQ s i h.1, fun r s' hs => ih (h.2 r s' hs)⟩

end Foundation
