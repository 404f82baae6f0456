import Wgs.Foundation.Runs

/-!
Programs with loops, proved to end.

A program that takes a bound on the iterations of its loops ends in `Q` when it returns, under every
bound that is large enough, one result that `Q` holds of.  `Ends.bind` runs one program after the
other.  `loop` repeats a body until it says to stop, `whileLoop` as long as a test succeeds; both
end by an invariant and a measure that every iteration decreases (`Ends.loop`, `Ends.whileLoop`), or
in the last one of the states that they are known to go through (`Ends.whileLoop_numbered`).
`Ends.loop_search` is about a search that is left early, `scan` is the linear search.  A loop whose
every iteration leads to another one, or into a fault, never returns (`loop_eq_none`).
-/

namespace Foundation

variable {α β σ ρ : Type}

/-! ### Programs that end -/

/-- The program returns a result, and `Q` holds of it. -/
def Ends (f : ℕ → Option α) (Q : α → Prop) : Prop := ∃ r, Returns f r ∧ Q r

namespace Ends

variable {f : ℕ → Option α} {g : ℕ → α → Option β} {Q Q' : α → Prop} {R : β → Prop} {r : α}

lemma of_eq (hf : ∀ fuel, f fuel = some r) (hr : Q r) : Ends f Q :=
  ⟨r, ⟨0, fun fuel _ => hf fuel⟩, hr⟩

lemma mono (h : Ends f Q) (hQ : ∀ r, Q r → Q' r) : Ends f Q' := by
  obtain ⟨r, hret, hr⟩ := h
  exact ⟨r, hret, hQ r hr⟩

/-- **The rule of composition.** -/
lemma bind (h : Ends f Q) (hg : ∀ r, Q r → Ends (fun fuel => g fuel r) R) :
    Ends (fun fuel => f fuel >>= g fuel) R := by
  obtain ⟨r, ⟨N, hN⟩, hr⟩ := h
  obtain ⟨r', ⟨N', hN'⟩, hr'⟩ := hg r hr
  refine ⟨r', ⟨max N N', fun fuel hfuel => ?_⟩, hr'⟩
  beta_reduce
  rw [hN fuel (le_trans (le_max_left _ _) hfuel)]
  exact hN' fuel (le_trans (le_max_right _ _) hfuel)

/-- A call takes one from the bound. -/
lemma of_succ (h : Ends (fun fuel => f (fuel + 1)) Q) : Ends f Q := by
  obtain ⟨r, hret, hr⟩ := h
  exact ⟨r, hret.succ fun _ hfuel => hfuel, hr⟩

/-- What a program is known to return is what it ends in. -/
lemma of_returns (h : Ends f Q) (hret : Returns f r) : Q r := by
  obtain ⟨r', hret', hr'⟩ := h
  rwa [hret.unique hret']

end Ends

/-- A program without a result does not return. -/
lemma not_returns {f : ℕ → Option α} {r : α} (h : ∀ fuel, f fuel = none) : ¬ Returns f r := by
  rintro ⟨N, hN⟩
  have hsome := hN N le_rfl
  rw [h N] at hsome
  cases hsome

/-! ### Loops -/

/-- How an iteration ends. -/
inductive Control (σ ρ : Type) where
  | next (s : σ)
  | stop (r : ρ)

/-- After `next`, `I` holds; after `stop`, `Q`. -/
def Control.Meets (I : σ → Prop) (Q : ρ → Prop) : Control σ ρ → Prop
  | next s => I s
  | stop r => Q r

/-- Repeats the body until it stops. -/
def loop (body : ℕ → σ → Option (Control σ ρ)) : ℕ → σ → Option ρ
  | 0, _ => none
  | fuel + 1, s => do
      match ← body fuel s with
      | .next s' => loop body fuel s'
      | .stop r => return r

/-- `while (test) body` -/
def whileLoop (test : σ → Option Bool) (body : ℕ → σ → Option σ) : ℕ → σ → Option σ :=
  loop fun fuel s => do
    if ← test s then return .next (← body fuel s) else return .stop s

section Loops

variable {body : ℕ → σ → Option (Control σ ρ)} {I : σ → Prop} {Q : ρ → Prop} {s : σ}

/-- **The rule of loops**: every iteration keeps the invariant and decreases the measure, or stops
in `Q`. -/
theorem Ends.loop (μ : σ → ℕ)
    (h : ∀ s, I s → Ends (fun fuel => body fuel s) (Control.Meets (fun s' => I s' ∧ μ s' < μ s) Q))
    (hs : I s) : Ends (fun fuel => Foundation.loop body fuel s) Q := by
  induction hμ : μ s using Nat.strong_induction_on generalizing s with
  | _ n ih =>
      refine Ends.of_succ ((h s hs).bind fun c hc => ?_)
      cases c with
      | next s' => exact ih (μ s') (hμ ▸ hc.2) hc.1 rfl
      | stop r => exact .of_eq (fun _ => rfl) hc

/-- The rule of loops whose iterations all run under the bound of the loop. -/
theorem Ends.loop_outer (μ : σ → ℕ)
    (h : ∀ s, I s → Ends (fun fuel => body fuel s) (Control.Meets (fun s' => I s' ∧ μ s' < μ s) Q))
    (hs : I s) : Ends (fun fuel => Foundation.loop (fun _ => body fuel) fuel s) Q := by
  -- the iterations left are counted apart from the bound that they run under
  obtain ⟨r, ⟨N, hN⟩, hr⟩ : ∃ r, (∃ N, ∀ fuel, N ≤ fuel → ∀ k, N ≤ k →
      Foundation.loop (fun _ => body fuel) k s = some r) ∧ Q r := by
    induction hμ : μ s using Nat.strong_induction_on generalizing s with
    | _ n ih =>
        obtain ⟨c, ⟨N, hN⟩, hc⟩ := h s hs
        cases c with
        | next s' =>
            obtain ⟨r, ⟨N', hN'⟩, hr⟩ := ih (μ s') (hμ ▸ hc.2) hc.1 rfl
            refine ⟨r, ⟨max N N' + 1, fun fuel hfuel k hk => ?_⟩, hr⟩
            obtain ⟨k, rfl⟩ : ∃ k', k = k' + 1 := ⟨k - 1, by omega⟩
            have hbody : body fuel s = some (.next s') := hN fuel (by omega)
            rw [Foundation.loop, hbody]
            exact hN' fuel (by omega) k (by omega)
        | stop r =>
            refine ⟨r, ⟨N + 1, fun fuel hfuel k hk => ?_⟩, hc⟩
            obtain ⟨k, rfl⟩ : ∃ k', k = k' + 1 := ⟨k - 1, by omega⟩
            have hbody : body fuel s = some (.stop r) := hN fuel (by omega)
            rw [Foundation.loop, hbody]
            rfl
  exact ⟨r, ⟨N, fun fuel hfuel => hN fuel hfuel fuel hfuel⟩, hr⟩

/-- The rule of `while`. -/
theorem Ends.whileLoop {test : σ → Option Bool} {body : ℕ → σ → Option σ} {Q : σ → Prop}
    (μ : σ → ℕ)
    (h : ∀ s, I s →
      test s = some true ∧ Ends (fun fuel => body fuel s) (fun s' => I s' ∧ μ s' < μ s)
      ∨ test s = some false ∧ Q s)
    (hs : I s) : Ends (fun fuel => Foundation.whileLoop test body fuel s) Q := by
  refine Ends.loop μ (fun s hs => ?_) hs
  rcases h s hs with ⟨htest, hbody⟩ | ⟨htest, hQ⟩
  · rw [htest]
    exact hbody.bind fun s' hs' => .of_eq (fun _ => rfl) hs'
  · rw [htest]
    exact .of_eq (fun _ => rfl) hQ

/-- One iteration, and then the rest of the loop. -/
lemma Ends.loop_step (h : Ends (fun fuel => body fuel s)
      (Control.Meets (fun s' => Ends (fun fuel => Foundation.loop body fuel s') Q) Q)) :
    Ends (fun fuel => Foundation.loop body fuel s) Q := by
  refine Ends.of_succ (h.bind fun c hc => ?_)
  cases c with
  | next s' => exact hc
  | stop r => exact .of_eq (fun _ => rfl) hc

/-- One iteration of a `while`, and then the rest. -/
lemma Ends.whileLoop_true {test : σ → Option Bool} {body : ℕ → σ → Option σ} {Q : σ → Prop}
    (htest : test s = some true)
    (h : Ends (fun fuel => body fuel s)
      fun s' => Ends (fun fuel => Foundation.whileLoop test body fuel s') Q) :
    Ends (fun fuel => Foundation.whileLoop test body fuel s) Q := by
  refine Ends.loop_step ?_
  rw [htest]
  exact h.bind fun s' hs' => .of_eq (fun _ => rfl) hs'

/-- The end of a `while`. -/
lemma Ends.whileLoop_false {test : σ → Option Bool} {body : ℕ → σ → Option σ} {Q : σ → Prop}
    (htest : test s = some false) (h : Q s) :
    Ends (fun fuel => Foundation.whileLoop test body fuel s) Q := by
  refine Ends.loop_step ?_
  rw [htest]
  exact .of_eq (fun _ => rfl) h

/-- A loop that goes through states with numbers, up to the `n`-th one. -/
lemma Ends.loop_numbered {k n : ℕ} (state : ℕ → σ)
    (hstep : ∀ k < n, Ends (fun fuel => body fuel (state k)) (· = .next (state (k + 1))))
    (hlast : Ends (fun fuel => Foundation.loop body fuel (state n)) Q) (hk : k ≤ n) :
    Ends (fun fuel => Foundation.loop body fuel (state k)) Q := by
  induction hk using Nat.decreasingInduction with
  | self => exact hlast
  | of_succ k hk ih =>
      refine Ends.loop_step ((hstep k hk).mono fun c hc => ?_)
      subst hc
      exact ih

/-- The same of a `while`, whose test fails in the `n`-th state. -/
lemma Ends.whileLoop_numbered {test : σ → Option Bool} {body : ℕ → σ → Option σ} {k n : ℕ}
    (state : ℕ → σ) (htest : ∀ k < n, test (state k) = some true)
    (hstep : ∀ k < n, Ends (fun fuel => body fuel (state k)) (· = state (k + 1)))
    (hlast : test (state n) = some false) (hk : k ≤ n) :
    Ends (fun fuel => Foundation.whileLoop test body fuel (state k)) (· = state n) := by
  refine Ends.loop_numbered state (fun k hk => ?_) (.whileLoop_false hlast rfl) hk
  rw [htest k hk]
  refine (hstep k hk).bind fun s hs => ?_
  subst hs
  exact .of_eq (fun _ => rfl) rfl

/-- A search that counts up to `last`, unless it is stopped at a place where `P` holds. -/
lemma Ends.loop_search {body : ℕ → ℤ → Option (Control ℤ ρ)} {first last : ℤ} {P : ℤ → Prop}
    {found missed : ρ}
    (hfound : ∀ k, first ≤ k → k < last → P k →
      Ends (fun fuel => body fuel k) (· = .stop found))
    (hnext : ∀ k, first ≤ k → k < last → ¬ P k →
      Ends (fun fuel => body fuel k) (· = .next (k + 1)))
    (hmissed : ∀ k, last ≤ k → Ends (fun fuel => body fuel k) (· = .stop missed)) :
    Ends (fun fuel => Foundation.loop body fuel first) fun r =>
      (∃ k, first ≤ k ∧ k < last ∧ P k) ∧ r = found
      ∨ (¬ ∃ k, first ≤ k ∧ k < last ∧ P k) ∧ r = missed := by
  refine Ends.loop (I := fun i => first ≤ i ∧ ∀ k, first ≤ k → k < i → k < last → ¬ P k)
    (fun i => (last - i).toNat) (fun i hi => ?_) ⟨le_rfl, fun k hk hlt => by omega⟩
  obtain ⟨hfirst, hbefore⟩ := hi
  by_cases hin : i < last
  · by_cases hP : P i
    · refine (hfound i hfirst hin hP).mono fun c hc => ?_
      subst hc
      exact Or.inl ⟨⟨i, hfirst, hin, hP⟩, rfl⟩
    · refine (hnext i hfirst hin hP).mono fun c hc => ?_
      subst hc
      refine ⟨⟨by omega, fun k hk hlt hlast => ?_⟩, by omega⟩
      rcases (Int.lt_add_one_iff.mp hlt).lt_or_eq with hlt | rfl
      · exact hbefore k hk hlt hlast
      · exact hP
  · refine (hmissed i (by omega)).mono fun c hc => ?_
    subst hc
    refine Or.inr ⟨?_, rfl⟩
    rintro ⟨k, hk, hlast, hP⟩
    exact hbefore k hk (by omega) hlast hP

/-- What every iteration keeps, and every stop gives, holds of what a loop returns. -/
lemma loop_invariant {fuel : ℕ} {r : ρ}
    (h : ∀ fuel s c, I s → body fuel s = some c → c.Meets I Q) (hs : I s)
    (hr : Foundation.loop body fuel s = some r) : Q r := by
  induction fuel generalizing s with
  | zero => cases hr
  | succ fuel ih =>
      obtain ⟨c, hc, hr⟩ := Option.bind_eq_some_iff.mp hr
      have hmeets := h fuel s c hs hc
      cases c with
      | next s' => exact ih hmeets hr
      | stop r' =>
          obtain rfl := Option.some_inj.mp hr
          exact hmeets

/-- What the body of a `while` keeps holds when the loop returns. -/
lemma whileLoop_invariant {test : σ → Option Bool} {body : ℕ → σ → Option σ} {fuel : ℕ} {s' : σ}
    (h : ∀ fuel s s', I s → test s = some true → body fuel s = some s' → I s') (hs : I s)
    (hr : Foundation.whileLoop test body fuel s = some s') : I s' := by
  refine loop_invariant (fun fuel s c hs hc => ?_) hs hr
  obtain ⟨b, hb, hc⟩ := Option.bind_eq_some_iff.mp hc
  cases b with
  | true =>
      obtain ⟨s', hs', hc⟩ := Option.bind_eq_some_iff.mp hc
      obtain rfl := Option.some_inj.mp hc
      exact h fuel s s' hs hb hs'
  | false =>
      obtain rfl := Option.some_inj.mp hc
      exact hs

/-- A loop that no iteration stops does not return. -/
lemma loop_eq_none
    (h : ∀ fuel s, I s → ∀ c, body fuel s = some c → c.Meets I fun _ => False) (hs : I s)
    (fuel : ℕ) : Foundation.loop body fuel s = none := by
  induction fuel generalizing s with
  | zero => rfl
  | succ fuel ih =>
      rw [Foundation.loop]
      cases hb : body fuel s with
      | none => rfl
      | some c =>
          have hc := h fuel s hs c hb
          cases c with
          | next s' => exact ih hc
          | stop r => exact hc.elim

/-- A `while` whose test never fails does not return. -/
lemma whileLoop_eq_none {test : σ → Option Bool} {body : ℕ → σ → Option σ}
    (htest : ∀ s, I s → test s ≠ some false)
    (hbody : ∀ fuel s s', I s → body fuel s = some s' → I s') (hs : I s) (fuel : ℕ) :
    Foundation.whileLoop test body fuel s = none := by
  refine loop_eq_none (fun fuel s hs c hc => ?_) hs fuel
  obtain ⟨b, hb, hc⟩ := Option.bind_eq_some_iff.mp hc
  cases b with
  | true =>
      obtain ⟨s', hs', hc⟩ := Option.bind_eq_some_iff.mp hc
      obtain rfl := Option.some_inj.mp hc
      exact hbody fuel s s' hs hs'
  | false => exact absurd hb (htest s hs)

/-- A `while` whose body gives no result does not return. -/
lemma whileLoop_eq_none_of_body {test : σ → Option Bool} {body : ℕ → σ → Option σ}
    (htest : ∀ s, I s → test s ≠ some false) (hbody : ∀ fuel s, I s → body fuel s = none)
    (hs : I s) (fuel : ℕ) : Foundation.whileLoop test body fuel s = none := by
  refine whileLoop_eq_none htest (fun fuel s s' hs hs' => ?_) hs fuel
  rw [hbody fuel s hs] at hs'
  cases hs'

/-- **A counter that cannot pass its bound**: a `while` that counts up to the greatest value that
its counter can take does not return. -/
lemma whileLoop_counter_eq_none {bound i : ℤ} {next : ℤ → ℤ} {test : σ × ℤ → Option Bool}
    {body : ℕ → σ × ℤ → Option (σ × ℤ)} {step : ℕ → σ → ℤ → Option σ}
    (htest : ∀ s i, test (s, i) = some (decide (i ≤ bound)))
    (hbody : ∀ fuel s i, body fuel (s, i) = (step fuel s i).bind fun s => some (s, next i))
    (hnext : ∀ i, next i ≤ bound) (hi : i ≤ bound) (fuel : ℕ) :
    Foundation.whileLoop test body fuel (s, i) = none := by
  refine whileLoop_eq_none (I := fun r : σ × ℤ => r.2 ≤ bound) (fun ⟨s, i⟩ hi => ?_)
    (fun fuel ⟨s, i⟩ r' _ hr' => ?_) hi fuel
  · rw [htest, decide_eq_true hi]
    exact nofun
  · rw [hbody] at hr'
    obtain ⟨t, -, hr'⟩ := Option.bind_eq_some_iff.mp hr'
    obtain rfl := Option.some_inj.mp hr'
    exact hnext i

end Loops

/-! ### Linear search -/

/-- `while (i <= last && !stop(i)) i++;` -/
def scan (last : ℤ) (stop : ℤ → Option Bool) : ℕ → ℤ → Option ℤ :=
  whileLoop (fun i => if i ≤ last then (stop i).map (!·) else some false) (fun _ i => some (i + 1))

/-- **A linear search ends** at the first place that stops it, or behind the last one. -/
theorem scan_ends {first last : ℤ} {stop : ℤ → Option Bool} {P : ℤ → Prop} [DecidablePred P]
    (hstop : ∀ i, first ≤ i → i ≤ last → stop i = some (decide (P i))) (hle : first ≤ last + 1) :
    Ends (fun fuel => scan last stop fuel first) fun i => first ≤ i ∧ i ≤ last + 1
      ∧ (∀ k, first ≤ k → k < i → ¬ P k) ∧ (i ≤ last → P i) := by
  refine Ends.whileLoop
    (I := fun i => first ≤ i ∧ i ≤ last + 1 ∧ ∀ k, first ≤ k → k < i → ¬ P k)
    (fun i => (last + 1 - i).toNat) (fun i hi => ?_) ⟨le_rfl, hle, fun k hk hlt => by omega⟩
  obtain ⟨hfirst, hlast, hbefore⟩ := hi
  by_cases hin : i ≤ last
  · by_cases hP : P i
    · exact Or.inr ⟨by simp [hin, hstop i hfirst hin, hP], hfirst, hlast, hbefore, fun _ => hP⟩
    · refine Or.inl ⟨by simp [hin, hstop i hfirst hin, hP], .of_eq (fun _ => rfl) ?_⟩
      refine ⟨⟨by omega, by omega, fun k hk hlt => ?_⟩, by omega⟩
      rcases (Int.lt_add_one_iff.mp hlt).lt_or_eq with hlt | rfl
      · exact hbefore k hk hlt
      · exact hP
  · exact Or.inr ⟨by simp [hin], hfirst, hlast, hbefore, fun h => absurd h hin⟩

end Foundation
