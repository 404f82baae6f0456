import Mathlib.Tactic

/-!
Programs over commands.

A `Prog` asks a machine to execute commands, one after the other, and goes on with the replies.  It
can be run on any machine that executes the commands (`Prog.run`), so one text is a program at two
levels of a design.  Where a low machine serves every command that a high one serves, with the same
reply and related states (`Simulates`), it serves every program so (`Simulates.run`).
-/

namespace Foundation

/-- A program over commands with their types of replies. -/
inductive Prog (κ : Type) (ρ : κ → Type) (α : Type) : Type where
  | ret (a : α)
  | cmd (c : κ) (k : ρ c → Prog κ ρ α)

namespace Prog

variable {κ : Type} {ρ : κ → Type} {σ τ : Type} {α β : Type}

/-- A program goes on with the result of another one. -/
def bind : Prog κ ρ α → (α → Prog κ ρ β) → Prog κ ρ β
  | ret a, f => f a
  | cmd c k, f => cmd c fun r => (k r).bind f

instance : Monad (Prog κ ρ) where
  pure := ret
  bind := bind

/-- The program of one command. -/
def call (c : κ) : Prog κ ρ (ρ c) := cmd c ret

/-- The program is run on a machine, which may refuse a command. -/
def run (exec : (c : κ) → σ → Option (ρ c × σ)) : Prog κ ρ α → σ → Option (α × σ)
  | ret a, s => some (a, s)
  | cmd c k, s => (exec c s).bind fun r => (k r.1).run exec r.2

variable {exec : (c : κ) → σ → Option (ρ c × σ)} {s s' : σ}

@[simp] lemma run_pure (a : α) : (pure a : Prog κ ρ α).run exec s = some (a, s) := rfl

@[simp] lemma run_bind (x : Prog κ ρ α) (f : α → Prog κ ρ β) :
    (x >>= f).run exec s = (x.run exec s).bind fun r => (f r.1).run exec r.2 := by
  change (x.bind f).run exec s = _
  induction x generalizing s with
  | ret a => rfl
  | cmd c k ih =>
      simp only [bind, run]
      cases exec c s with
      | none => rfl
      | some r => exact ih r.1

@[simp] lemma run_call (c : κ) : (call c : Prog κ ρ (ρ c)).run exec s = exec c s := by
  simp only [call, run]
  cases exec c s <;> rfl

@[simp] lemma run_ite {p : Prop} [Decidable p] (x y : Prog κ ρ α) :
    (if p then x else y).run exec s = if p then x.run exec s else y.run exec s := by
  split_ifs <;> rfl

/-- A run of a program ends, with a result and a state as promised. -/
def Ends (exec : (c : κ) → σ → Option (ρ c × σ)) (x : Prog κ ρ α) (s : σ) (Q : α → σ → Prop) :
    Prop :=
  ∃ a s', x.run exec s = some (a, s') ∧ Q a s'

namespace Ends

variable {x y : Prog κ ρ α} {f : α → Prog κ ρ β} {Q Q' : α → σ → Prop} {P : β → σ → Prop} {a : α}

lemma of_run (h : x.run exec s = some (a, s')) (hQ : Q a s') : x.Ends exec s Q := ⟨a, s', h, hQ⟩

lemma ret (hQ : Q a s) : (pure a : Prog κ ρ α).Ends exec s Q := of_run rfl hQ

/-- The rule of a program that goes on with another one. -/
lemma bind (h : x.Ends exec s Q) (hf : ∀ a s', Q a s' → (f a).Ends exec s' P) :
    (x >>= f).Ends exec s P := by
  obtain ⟨a, s', hx, hQ⟩ := h
  obtain ⟨b, s'', hfa, hP⟩ := hf a s' hQ
  exact ⟨b, s'', by simp [hx, hfa], hP⟩

/-- A program goes on behind one whose run is known. -/
lemma after (h : x.run exec s = some (a, s')) (hf : (f a).Ends exec s' P) :
    (x >>= f).Ends exec s P :=
  (of_run h (Q := fun b t => b = a ∧ t = s') ⟨rfl, rfl⟩).bind fun b t hb => by
    obtain ⟨rfl, rfl⟩ := hb
    exact hf

/-- A program goes on behind a command that is served. -/
lemma command {c : κ} {r : ρ c} {f : ρ c → Prog κ ρ β} (h : exec c s = some (r, s'))
    (hf : (f r).Ends exec s' P) : (call c >>= f).Ends exec s P :=
  .after ((run_call c).trans h) hf

lemma mono (h : x.Ends exec s Q) (hQ : ∀ a s', Q a s' → Q' a s') : x.Ends exec s Q' := by
  obtain ⟨a, s', hx, hq⟩ := h
  exact ⟨a, s', hx, hQ a s' hq⟩

/-- A run ends in one way. -/
lemma and (h : x.Ends exec s Q) (h' : x.Ends exec s Q') :
    x.Ends exec s fun a s' => Q a s' ∧ Q' a s' := by
  obtain ⟨a, s', hx, hQ⟩ := h
  obtain ⟨b, t, hx', hQ'⟩ := h'
  obtain ⟨rfl, rfl⟩ := Prod.mk.inj (Option.some_inj.mp (hx.symm.trans hx'))
  exact ⟨a, s', hx, hQ, hQ'⟩

/-- The rule of a branch. -/
lemma ite {p : Prop} [Decidable p] (hx : p → x.Ends exec s Q) (hy : ¬ p → y.Ends exec s Q) :
    (if p then x else y).Ends exec s Q := by
  by_cases hp : p
  · rw [if_pos hp]
    exact hx hp
  · rw [if_neg hp]
    exact hy hp

end Ends

end Prog

section Simulation

variable {κ : Type} {ρ : κ → Type} {σ τ : Type} {α : Type}
  {exec : (c : κ) → σ → Option (ρ c × σ)} {exec' : (c : κ) → τ → Option (ρ c × τ)}
  {R : σ → τ → Prop}

/-- Every command that the machine of the states `τ` serves is served by the one of the states `σ`,
with the same reply and related states. -/
def Simulates (exec : (c : κ) → σ → Option (ρ c × σ)) (exec' : (c : κ) → τ → Option (ρ c × τ))
    (R : σ → τ → Prop) : Prop :=
  ∀ c s t r t', R s t → exec' c t = some (r, t') → ∃ s', exec c s = some (r, s') ∧ R s' t'

/-- **A simulation of the commands is one of the programs.** -/
theorem Simulates.run (h : Simulates exec exec' R) (x : Prog κ ρ α) {s : σ} {t t' : τ} {a : α}
    (hR : R s t) (hx : x.run exec' t = some (a, t')) :
    ∃ s', x.run exec s = some (a, s') ∧ R s' t' := by
  induction x generalizing s t with
  | ret b =>
      obtain ⟨rfl, rfl⟩ := Prod.mk.inj (Option.some_inj.mp hx)
      exact ⟨s, rfl, hR⟩
  | cmd c k ih =>
      obtain ⟨⟨r, t₁⟩, hc, hk⟩ := Option.bind_eq_some_iff.mp hx
      obtain ⟨s₁, hs₁, hR₁⟩ := h c s t r t₁ hR hc
      obtain ⟨s', hs', hR'⟩ := ih r hR₁ hk
      exact ⟨s', by simp [Prog.run, hs₁, hs'], hR'⟩

end Simulation

end Foundation
